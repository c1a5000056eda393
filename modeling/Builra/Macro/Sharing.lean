import Builra.Macro.Binding

namespace Builra.Macro

open List MacroValueAssignment
open Option hiding any_eq_true
open Bool hiding not_or

/-!
# `Macro.Sharing` — pushing a table without the assignments behind its literals

`pushContentsOf` drops the receiver's assignments of a macro when the pushed chain has an unconditional literal. No
evaluation looks past that literal (`reach`), but `bindConditionParameter` looks through whole chains for the
value that decides. A run of operations on tables is compared with the same run in which chains are put in front
of each other as they are: the tables evaluate alike as long as no binding finds a value only behind a literal.
-/

/-! ## What evaluation can look at -/

/-- A chain up to its first unconditional literal. -/
def reach : List MacroValueAssignment → List MacroValueAssignment
  | [] => []
  | v :: next => if v.isUnconditionalLiteral then [v] else v :: reach next

theorem reach_cons_of_literal {v : MacroValueAssignment} (h : v.isUnconditionalLiteral = true)
    (next : List MacroValueAssignment) : reach (v :: next) = [v] := by
  rw [reach, if_pos h]

theorem reach_cons_of_not_literal {v : MacroValueAssignment} (h : ¬v.isUnconditionalLiteral = true)
    (next : List MacroValueAssignment) : reach (v :: next) = v :: reach next := by
  rw [reach, if_neg h]

theorem inForce_reach (fns : MatchFunctions) (paramValues : ConditionParameterValues)
    (chain : List MacroValueAssignment) : inForce fns paramValues (reach chain) = inForce fns paramValues chain := by
  induction chain with
  | nil => rfl
  | cons v next ih =>
    by_cases hliteral : v.isUnconditionalLiteral = true
    · have hboth := hliteral
      simp only [isUnconditionalLiteral, and_eq_true, isNone_iff_eq_none] at hboth
      have happlies : v.applies fns paramValues = true := by
        rw [applies, hboth.2]
      simp only [reach_cons_of_literal hliteral, inForce, happlies, hboth.1, if_true]
    · rw [reach_cons_of_not_literal hliteral, inForce, inForce, ih]

theorem reach_sublist (chain : List MacroValueAssignment) : (reach chain).Sublist chain := by
  induction chain with
  | nil => exact List.Sublist.refl _
  | cons v next ih =>
    by_cases hliteral : v.isUnconditionalLiteral = true
    · rw [reach_cons_of_literal hliteral]
      exact List.Sublist.cons_cons v (nil_sublist next)
    · rw [reach_cons_of_not_literal hliteral]
      exact List.Sublist.cons_cons v ih

/-- Behind a chain with an unconditional literal nothing is reached, and all of a chain without one is. -/
theorem reach_append (chain more : List MacroValueAssignment) :
    reach (chain ++ more) = if containsUnconditionalLiteralInChain chain then reach chain else chain ++ reach more := by
  induction chain with
  | nil => rfl
  | cons v next ih =>
    by_cases hliteral : v.isUnconditionalLiteral = true
    · simp only [cons_append, reach_cons_of_literal hliteral, containsUnconditionalLiteralInChain, hliteral,
        Bool.true_or, if_true]
    · simp only [cons_append, reach_cons_of_not_literal hliteral, containsUnconditionalLiteralInChain, hliteral,
        Bool.false_or, ih]
      split
      · rfl
      · rfl

variable {chain : List MacroValueAssignment}

theorem reach_of_no_literal (h : ¬containsUnconditionalLiteralInChain chain = true) : reach chain = chain := by
  have happend := reach_append chain []
  rw [append_nil, if_neg h] at happend
  exact happend.trans (append_nil chain)

theorem contains_reach (chain : List MacroValueAssignment) :
    containsUnconditionalLiteralInChain (reach chain) = containsUnconditionalLiteralInChain chain := by
  induction chain with
  | nil => rfl
  | cons v next ih =>
    by_cases hliteral : v.isUnconditionalLiteral = true
    · simp only [reach_cons_of_literal hliteral, containsUnconditionalLiteralInChain, hliteral, Bool.true_or]
    · simp only [reach_cons_of_not_literal hliteral, containsUnconditionalLiteralInChain, ih]

/-- Mapping a chain by a function that keeps unconditional literals: what is behind one still does not matter. -/
theorem reach_filterMap {f : MacroValueAssignment → Option MacroValueAssignment}
    (hf : ∀ v, v.isUnconditionalLiteral = true → f v = some v) (chain : List MacroValueAssignment) :
    reach ((reach chain).filterMap f) = reach (chain.filterMap f) := by
  induction chain with
  | nil => rfl
  | cons v next ih =>
    by_cases hliteral : v.isUnconditionalLiteral = true
    · rw [reach_cons_of_literal hliteral, filterMap_cons_some (hf v hliteral),
        filterMap_cons_some (hf v hliteral), reach_cons_of_literal hliteral, reach_cons_of_literal hliteral]
    · rw [reach_cons_of_not_literal hliteral]
      cases hv : f v with
      | none => rw [filterMap_cons_none hv, filterMap_cons_none hv, ih]
      | some v' => rw [filterMap_cons_some hv, filterMap_cons_some hv, reach, reach, ih]

/-! ## Chains -/

theorem insertCopies_eq (src dst : List MacroValueAssignment) :
    insertCopiesOfMacroValueAssignmentNodes src dst
      = if containsUnconditionalLiteralInChain src then src else src ++ dst := by
  induction src with
  | nil => rfl
  | cons v next ih =>
    cases dst with
    | nil => simp only [insertCopiesOfMacroValueAssignmentNodes, isEmpty_nil, if_true, append_nil, ite_self]
    | cons w rest =>
      rw [insertCopiesOfMacroValueAssignmentNodes, isEmpty_cons, if_neg Bool.false_ne_true]
      split
      · rfl
      · rename_i hno
        rw [containsUnconditionalLiteralInChain, Bool.or_eq_true, not_or] at hno
        rw [ih, if_neg hno.2]
        rfl

/-- A chain from which assignments behind the first unconditional literal have been dropped. -/
structure Shares (chain plain : List MacroValueAssignment) : Prop where
  sublist : chain.Sublist plain
  reach : reach chain = reach plain

theorem Shares.refl (chain : List MacroValueAssignment) : Shares chain chain := ⟨List.Sublist.refl _, rfl⟩

variable {plain : List MacroValueAssignment}

theorem Shares.cons (h : Shares chain plain) (v : MacroValueAssignment) :
    Shares (v :: chain) (v :: plain) :=
  ⟨h.sublist.cons_cons v, by rw [Macro.reach, Macro.reach, h.reach]⟩

theorem Shares.insertCopies {src plainSrc : List MacroValueAssignment} (h : Shares chain plain)
    (hsrc : Shares src plainSrc) :
    Shares (insertCopiesOfMacroValueAssignmentNodes src chain) (plainSrc ++ plain) := by
  have hcontains : containsUnconditionalLiteralInChain src = containsUnconditionalLiteralInChain plainSrc := by
    rw [← contains_reach src, hsrc.reach, contains_reach]
  rw [insertCopies_eq]
  by_cases hliteral : containsUnconditionalLiteralInChain src = true
  · rw [if_pos hliteral]
    refine ⟨hsrc.sublist.trans (sublist_append_left plainSrc plain), ?_⟩
    rw [reach_append, if_pos (hcontains ▸ hliteral)]
    exact hsrc.reach
  · rw [if_neg hliteral]
    refine ⟨hsrc.sublist.append h.sublist, ?_⟩
    have hsame : src = plainSrc := by
      rw [← reach_of_no_literal hliteral, hsrc.reach, reach_of_no_literal (hcontains ▸ hliteral)]
    rw [reach_append, reach_append, if_neg hliteral, if_neg (hcontains ▸ hliteral), hsame, h.reach]

/-- A value that matches something in the chain, or one before it, matches something that evaluation can look at. -/
def NothingBehindLiteral (fns : MatchFunctions) (parameter : MacroConditionParameter)
    (conditionValues : List ConditionValue) (chain : List MacroValueAssignment) : Prop :=
  ∀ before value after, conditionValues = before ++ value :: after →
    (∃ v ∈ chain, v.matchesValue fns parameter value = true) →
    ∃ value' ∈ before ++ [value], ∃ v ∈ reach chain, v.matchesValue fns parameter value' = true

section Bind

variable {fns : MatchFunctions} {parameter : MacroConditionParameter}

variable {chain plain : List MacroValueAssignment} {conditionValues : List ConditionValue}

/-- The values to look for are found alike in all chains between a chain and what is reached of it. -/
theorem findEffective_eq (h : NothingBehindLiteral fns parameter conditionValues plain) (hshares : Shares chain plain) :
    findEffectiveConditionValue fns parameter conditionValues chain
      = findEffectiveConditionValue fns parameter conditionValues plain := by
  induction conditionValues with
  | nil => rfl
  | cons value values ih =>
    have hreach : ∀ v ∈ reach plain, v ∈ chain := by
      rw [← hshares.reach]
      exact fun v hv => (reach_sublist chain).subset hv
    have hchain : chain.any (matchesValue fns parameter value)
        = plain.any (matchesValue fns parameter value) := by
      rw [Bool.eq_iff_iff, any_eq_true, any_eq_true]
      constructor
      · rintro ⟨v, hv, hmatch⟩
        exact ⟨v, hshares.sublist.subset hv, hmatch⟩
      · intro hmatch
        obtain ⟨value', hvalue', v, hv, hmatch'⟩ := h [] value values rfl hmatch
        rw [nil_append, mem_singleton] at hvalue'
        exact ⟨v, hreach v hv, hvalue' ▸ hmatch'⟩
    unfold findEffectiveConditionValue
    rw [find?_cons, find?_cons, hchain]
    cases hany : plain.any (matchesValue fns parameter value) with
    | true => rfl
    | false =>
      apply ih
      intro before value' after heq hmatch
      obtain ⟨found, hfound, v, hv, hmatch'⟩ := h (value :: before) value' after (by rw [heq]; rfl) hmatch
      rcases mem_cons.mp hfound with rfl | hfound
      · -- the value itself matches nothing
        have hyes : plain.any (matchesValue fns parameter found) = true :=
          any_eq_true.mpr ⟨v, (reach_sublist plain).subset hv, hmatch'⟩
        rw [hany] at hyes
        cases hyes
      · exact ⟨found, hfound, v, hv, hmatch'⟩

theorem bindAssignment_of_unconditional (value : ConditionValue) {v : MacroValueAssignment}
    (h : v.isUnconditionalLiteral = true) : bindAssignment fns parameter value v = some v := by
  simp only [isUnconditionalLiteral, and_eq_true, isNone_iff_eq_none] at h
  rw [bindAssignment, h.2]

theorem Shares.bindChain (hshares : Shares chain plain) (h : NothingBehindLiteral fns parameter conditionValues plain) :
    Shares (bindChain fns parameter conditionValues chain) (Macro.bindChain fns parameter conditionValues plain) := by
  unfold Macro.bindChain
  rw [findEffective_eq h hshares]
  cases findEffectiveConditionValue fns parameter conditionValues plain with
  | none => exact hshares
  | some value =>
    refine ⟨hshares.sublist.filterMap _, ?_⟩
    have hkeeps : ∀ v, v.isUnconditionalLiteral = true → bindAssignment fns parameter value v = some v :=
      fun v hv => bindAssignment_of_unconditional value hv
    rw [← reach_filterMap hkeeps chain, hshares.reach, reach_filterMap hkeeps plain]

end Bind

/-! ## Tables -/

namespace MacroValueAssignmentTable

/-- `pushContentsOf` as its documentation has it: the pushed chain, then the existing one. -/
def concatContentsOf (table otherTable : MacroValueAssignmentTable) : MacroValueAssignmentTable :=
  table.pushWith (· ++ ·) otherTable

/-- Two tables with the same macros in the same places, each chain of the one shared with the plain one of the other. -/
structure Shares (table plain : MacroValueAssignmentTable) : Prop where
  macroNamespace : table.macroNamespace = plain.macroNamespace
  entries : List.Forall₂ (fun e e' => e.1 = e'.1 ∧ Macro.Shares e.2 e'.2) table.valueAssignments plain.valueAssignments

theorem Shares.refl (table : MacroValueAssignmentTable) : Shares table table :=
  ⟨rfl, forall₂_same.mpr fun entry _ => ⟨rfl, .refl entry.2⟩⟩

variable {plain table : MacroValueAssignmentTable}

section

variable (h : Shares table plain)
include h

theorem Shares.lookupMacro (decl : MacroDeclaration) :
    Macro.Shares (table.lookupMacro decl) (plain.lookupMacro decl) := by
  have hentries := h.entries
  unfold MacroValueAssignmentTable.lookupMacro
  generalize table.valueAssignments = es at hentries ⊢
  generalize plain.valueAssignments = es' at hentries ⊢
  induction hentries with
  | nil => exact .refl []
  | @cons e e' es es' hentry _ ih =>
    by_cases hdecl : e.1 = decl
    · simp only [find?_cons, hdecl, hentry.1 ▸ hdecl, decide_true, map_some, getD_some]
      exact hentry.2
    · simp only [find?_cons, hdecl, hentry.1 ▸ hdecl, decide_false]
      exact ih

theorem Shares.setAssignments (decl : MacroDeclaration)
    {chain plainChain : List MacroValueAssignment} (hchain : Macro.Shares chain plainChain) :
    Shares (table.setAssignments decl chain) (plain.setAssignments decl plainChain) := by
  refine ⟨h.macroNamespace, .cons ⟨rfl, hchain⟩ ?_⟩
  apply rel_filter _ h.entries
  intro e e' hentry
  simp only [hentry.1]

theorem Shares.pushContentsOf {other plainOther : MacroValueAssignmentTable}
    (hother : Shares other plainOther) : Shares (table.pushContentsOf other) (plain.concatContentsOf plainOther) := by
  have hentries := hother.entries
  unfold MacroValueAssignmentTable.pushContentsOf concatContentsOf pushWith
  generalize other.valueAssignments = es at hentries ⊢
  generalize plainOther.valueAssignments = es' at hentries ⊢
  induction hentries generalizing table plain with
  | nil => exact h
  | @cons e e' es es' hentry _ ih =>
    apply ih
    dsimp only
    rw [← hentry.1]
    exact h.setAssignments e.1 ((h.lookupMacro e.1).insertCopies hentry.2)

theorem Shares.bindConditionParameter {fns : MatchFunctions}
    (parameter : MacroConditionParameter) (conditionValues : List ConditionValue)
    (hbehind : ∀ entry ∈ plain.valueAssignments, NothingBehindLiteral fns parameter conditionValues entry.2) :
    Shares (table.bindConditionParameter fns parameter conditionValues)
      (plain.bindConditionParameter fns parameter conditionValues) := by
  refine ⟨h.macroNamespace, ?_⟩
  have hentries := h.entries
  unfold MacroValueAssignmentTable.bindConditionParameter
  rw [forall₂_map_left_iff, forall₂_map_right_iff]
  generalize table.valueAssignments = es at hentries ⊢
  generalize plain.valueAssignments = es' at hentries hbehind ⊢
  induction hentries with
  | nil => exact .nil
  | @cons e e' es es' hentry _ ih =>
    obtain ⟨hhead, htail⟩ := forall_mem_cons.mp hbehind
    exact .cons ⟨hentry.1, hentry.2.bindChain hhead⟩ (ih htail)

theorem Shares.newValueDeclaration (p₁ p₂ : ConditionParameterValues) :
    newValueDeclaration ⟨table, p₁⟩ = Macro.newValueDeclaration ⟨plain, p₂⟩ := by
  have hkeys : table.valueAssignments.map Prod.fst = plain.valueAssignments.map Prod.fst := by
    have hentries := h.entries
    generalize table.valueAssignments = es at hentries ⊢
    generalize plain.valueAssignments = es' at hentries ⊢
    induction hentries with
    | nil => rfl
    | cons hentry _ ih => rw [map_cons, map_cons, hentry.1, ih]
  unfold Macro.newValueDeclaration
  dsimp only
  rw [hkeys, h.macroNamespace]

theorem Shares.sameEvaluation (fns : MatchFunctions) (paramValues : ConditionParameterValues) :
    SameEvaluation fns ⟨table, paramValues⟩ ⟨plain, paramValues⟩ := by
  apply ScopesAgree.sameEvaluation
  refine ⟨h.macroNamespace, h.newValueDeclaration _ _, ?_⟩
  intro decl
  dsimp only
  rw [← inForce_reach, (h.lookupMacro decl).reach, inForce_reach]

end

end MacroValueAssignmentTable

/-! ## Runs -/

/-- An operation on a table. The table can be the receiver of another table's contents, or the other way round. -/
inductive TableStep where
  | push (decl : MacroDeclaration) (value : MacroExpression) (conditions : Option (List MacroCondition))
  | pushContentsOf (otherTable : MacroValueAssignmentTable)
  | pushContentsOnto (receiver : MacroValueAssignmentTable)
  | bindConditionParameter (parameter : MacroConditionParameter) (conditionValues : List ConditionValue)

namespace TableStep

variable (fns : MatchFunctions)

def run (table : MacroValueAssignmentTable) : TableStep → MacroValueAssignmentTable
  | .push decl value conditions => table.push decl value conditions
  | .pushContentsOf otherTable => table.pushContentsOf otherTable
  | .pushContentsOnto receiver => receiver.pushContentsOf table
  | .bindConditionParameter parameter conditionValues => table.bindConditionParameter fns parameter conditionValues

/-- The same operation without sharing. -/
def runPlain (table : MacroValueAssignmentTable) : TableStep → MacroValueAssignmentTable
  | .push decl value conditions => table.push decl value conditions
  | .pushContentsOf otherTable => table.concatContentsOf otherTable
  | .pushContentsOnto receiver => receiver.concatContentsOf table
  | .bindConditionParameter parameter conditionValues => table.bindConditionParameter fns parameter conditionValues

/-- A binding finds no value behind a literal before it finds one ahead of it. -/
def LooksAhead (plain : MacroValueAssignmentTable) : TableStep → Prop
  | .bindConditionParameter parameter conditionValues =>
    ∀ entry ∈ plain.valueAssignments, NothingBehindLiteral fns parameter conditionValues entry.2
  | _ => True

/-- Every binding of a run looks ahead of the literals only, in the table that it binds. -/
def AllLookAhead : MacroValueAssignmentTable → List TableStep → Prop
  | _, [] => True
  | plain, step :: steps => step.LooksAhead fns plain ∧ AllLookAhead (step.runPlain fns plain) steps

variable {plain table : MacroValueAssignmentTable}

theorem shares_run (h : table.Shares plain) (step : TableStep) (hlooks : step.LooksAhead fns plain) :
    (step.run fns table).Shares (step.runPlain fns plain) := by
  cases step with
  | push decl value conditions => exact h.setAssignments decl ((h.lookupMacro decl).cons ⟨value, conditions⟩)
  | pushContentsOf otherTable => exact h.pushContentsOf (.refl otherTable)
  | pushContentsOnto receiver => exact (MacroValueAssignmentTable.Shares.refl receiver).pushContentsOf h
  | bindConditionParameter parameter conditionValues => exact h.bindConditionParameter parameter conditionValues hlooks

theorem shares_foldl (h : table.Shares plain) (steps : List TableStep) (hlooks : AllLookAhead fns plain steps) :
    (steps.foldl (run fns) table).Shares (steps.foldl (runPlain fns) plain) := by
  induction steps generalizing table plain with
  | nil => exact h
  | cons step steps ih => exact ih (shares_run fns h step hlooks.1) hlooks.2

end TableStep

end Builra.Macro
