import Builra.Util.UNIXShellCommandCodec
import Builra.Util.PathCharacters
import Mathlib.Data.Finset.Filter

namespace Builra.ResponseFiles

open Character

/-!
# `Util.ResponseFiles` — response files

`responseFileContents` writes arguments to one line, `expandResponseFiles` replaces references to files by the tokens of
the files. The set of files in progress is threaded through the recursion; what ends an expansion puts back into the set
is the path as it was spelled, while the set holds normalized paths.
-/

def responseFileContents (args : List (List Character)) : List Character :=
  (UNIXShellCommandCodec.new .singleQuotes .argumentsOnly).encode args

/-! ## Tokens -/

inductive TokenState where
  | normal
  | escaping
  | quoted
deriving DecidableEq, Repr

/-- The variables of the loop over a line. -/
structure Tokenizing where
  tokens : List (List Character) := []
  token : List Character := []
  state : TokenState := .normal

/-- A turn of the loop over a line. -/
def Tokenizing.turn (t : Tokenizing) (char : Character) : Tokenizing :=
  -- backslashes only escape outside of quoted text
  if char = ofScalar '\\' ∧ t.state = .normal then { t with state := .escaping }
  else if t.state = .escaping then { t with state := .normal, token := t.token ++ [char] }
  else if char = ofScalar '\'' then { t with state := if t.state = .quoted then .normal else .quoted }
  else if char.isWhitespace ∧ t.state = .normal then
    if t.token = [] then t else { t with tokens := t.tokens ++ [t.token], token := [] }
  else { t with token := t.token ++ [char] }

/-- Add the final token. -/
def Tokenizing.finish (t : Tokenizing) : List (List Character) :=
  if t.token = [] then t.tokens else t.tokens ++ [t.token]

def tokenizeResponseFileLine (line : List Character) : List (List Character) :=
  -- comments start at the beginning of a line
  if ofLiteral "//" <+: line then [] else (line.foldl Tokenizing.turn {}).finish

def isLineEnd (c : Character) : Bool := c = ofScalar '\n' || c = lineEnd

def tokenizeResponseFile (content : List Character) : List (List Character) :=
  ((content.splitOnP isLineEnd).filter (· ≠ [])).flatMap tokenizeResponseFileLine

/-! ## Expansion -/

inductive ExpansionError where
  | recursion (responseFile : List UInt8)
  | unreadable (responseFile : List UInt8)
deriving DecidableEq, Repr

/-- Nothing for an expansion that runs out of fuel. -/
abbrev Expansion := ExceptT ExpansionError Option

/-- The set has the normalized path of the file. -/
def IsVisited (u : Path.Unicode) (visited : Finset (List UInt8)) (path : List UInt8) : Prop :=
  ∃ key ∈ visited, u.same key (u.normalize path) = true
deriving Decidable

def remove (u : Path.Unicode) (visited : Finset (List UInt8)) (path : List UInt8) : Finset (List UInt8) :=
  visited.filter (fun key => ¬ u.same key path)

variable (u : Path.Unicode) (read : List UInt8 → Option (List Character)) (basePath : List UInt8)

/-- The path that an argument refers to. -/
def responseFile (arg : List Character) : List UInt8 :=
  u.join basePath ((unicodeScalars arg.tail).flatMap String.utf8EncodeChar)

def isReference (arg : List Character) : Bool := arg.head? = some (ofScalar '@')

/-- The loop over the arguments; `nested` expands the tokens of a file. -/
def expandArgs
    (nested : List (List Character) → Finset (List UInt8) → Expansion (List (List Character) × Finset (List UInt8))) :
    List (List Character) → Finset (List UInt8) → Expansion (List (List Character) × Finset (List UInt8))
  | [], visited => pure ([], visited)
  | arg :: args, visited =>
    if isReference arg then do
      let responseFile := responseFile u basePath arg
      -- guard against infinite recursion
      if IsVisited u visited responseFile then throw (.recursion responseFile)
      match read responseFile with
      | none => throw (.unreadable responseFile)
      | some contents =>
        let (lines, visited) ← nested (tokenizeResponseFile contents) (insert (u.normalize responseFile) visited)
        let (result, visited) ← expandArgs nested args (remove u visited responseFile)
        return (lines ++ result, visited)
    else do
      let (result, visited) ← expandArgs nested args visited
      return (arg :: result, visited)

def expandNested : Nat → List (List Character) → Finset (List UInt8) →
    Expansion (List (List Character) × Finset (List UInt8))
  | 0, _, _ => (none : Option _)
  | fuel + 1, args, visited => expandArgs u read basePath (expandNested fuel) args visited

/-- The arguments with the references replaced, or the error, when `fuel` bounds the nesting of the files. -/
def expandResponseFiles (fuel : Nat) (args : List (List Character)) :
    Option (Except ExpansionError (List (List Character))) :=
  (expandNested u read basePath fuel args ∅).run.map (Except.map Prod.fst)

/-- The expansion ends, with this result. -/
def Expands (args : List (List Character)) (result : Except ExpansionError (List (List Character))) : Prop :=
  ∃ fuel, expandResponseFiles u read basePath fuel args = some result

section

variable {u read basePath} {arg : List Character} {args ts result : List (List Character)}
  {visited visited' visited'' : Finset (List UInt8)} {contents : List Character} {e : ExpansionError}
  {nested : List (List Character) → Finset (List UInt8) → Expansion (List (List Character) × Finset (List UInt8))}

/-- An argument that is no reference is left as it is. -/
theorem expandArgs_argument (h : isReference arg = false) :
    expandArgs u read basePath nested (arg :: args) visited =
      (do let (result, visited) ← expandArgs u read basePath nested args visited
          return (arg :: result, visited)) := by
  rw [expandArgs, if_neg (by rw [h]; decide)]

section

variable (h : isReference arg = true)
include h

theorem expandArgs_recursion
    (hvisited : IsVisited u visited (responseFile u basePath arg)) :
    expandArgs u read basePath nested (arg :: args) visited = throw (.recursion (responseFile u basePath arg)) := by
  rw [expandArgs, if_pos h]
  dsimp only
  rw [if_pos hvisited]
  rfl

section

variable (hvisited : ¬ IsVisited u visited (responseFile u basePath arg))
include hvisited

theorem expandArgs_unreadable
    (hread : read (responseFile u basePath arg) = none) :
    expandArgs u read basePath nested (arg :: args) visited = throw (.unreadable (responseFile u basePath arg)) := by
  rw [expandArgs, if_pos h]
  dsimp only
  rw [if_neg hvisited, hread]

theorem expandArgs_file
    (hread : read (responseFile u basePath arg) = some contents) :
    expandArgs u read basePath nested (arg :: args) visited =
      (do let (lines, visited) ← nested (tokenizeResponseFile contents)
            (insert (u.normalize (responseFile u basePath arg)) visited)
          let (result, visited) ←
            expandArgs u read basePath nested args (remove u visited (responseFile u basePath arg))
          return (lines ++ result, visited)) := by
  rw [expandArgs, if_pos h]
  dsimp only
  rw [if_neg hvisited, hread]

end

end

/-- An expansion that ends has failed in its first part, or goes on behind it. -/
theorem bind_eq_some {α β : Type} {x : Expansion α} {f : α → Expansion β} {r : Except ExpansionError β} :
    (x >>= f) = some r ↔ (∃ a, x = some (.ok a) ∧ f a = some r) ∨ ∃ e, x = some (.error e) ∧ r = .error e := by
  cases x with
  | none =>
    constructor
    · intro h
      cases h
    · rintro (⟨a, h, -⟩ | ⟨e, h, -⟩)
      · cases h
      · cases h
  | some x =>
    cases x with
    | error e =>
      constructor
      · intro h
        cases h
        exact .inr ⟨e, rfl, rfl⟩
      · rintro (⟨a, h, -⟩ | ⟨e', h, rfl⟩)
        · cases h
        · cases h
          rfl
    | ok a =>
      constructor
      · exact fun h => .inl ⟨a, rfl, h⟩
      · rintro (⟨a', h, hf⟩ | ⟨e, h, -⟩)
        · cases h
          exact hf
        · cases h

/-! ### The fuel -/

variable {r : Except ExpansionError (List (List Character) × Finset (List UInt8))}

/-- More fuel makes no difference to an expansion that ends. -/
theorem expandArgs_mono
    {nested' : List (List Character) → Finset (List UInt8) → Expansion (List (List Character) × Finset (List UInt8))}
    (hnested : ∀ {args visited r}, nested args visited = some r → nested' args visited = some r)
    (h : expandArgs u read basePath nested args visited = some r) :
    expandArgs u read basePath nested' args visited = some r := by
  induction args generalizing visited r with
  | nil => exact h
  | cons arg args ih =>
    cases href : isReference arg with
    | false =>
      rw [expandArgs_argument href, bind_eq_some] at h ⊢
      rcases h with ⟨a, hrest, hreturn⟩ | ⟨e, hrest, rfl⟩
      · exact .inl ⟨a, ih hrest, hreturn⟩
      · exact .inr ⟨e, ih hrest, rfl⟩
    | true =>
      by_cases hvisited : IsVisited u visited (responseFile u basePath arg)
      · rw [expandArgs_recursion href hvisited] at h ⊢
        exact h
      cases hread : read (responseFile u basePath arg) with
      | none =>
        rw [expandArgs_unreadable href hvisited hread] at h ⊢
        exact h
      | some contents =>
        rw [expandArgs_file href hvisited hread, bind_eq_some] at h ⊢
        rcases h with ⟨⟨lines, visited⟩, hlines, h⟩ | ⟨e, hlines, rfl⟩
        · refine .inl ⟨⟨lines, visited⟩, hnested hlines, ?_⟩
          dsimp only at h ⊢
          rw [bind_eq_some] at h ⊢
          rcases h with ⟨a, hrest, hreturn⟩ | ⟨e, hrest, rfl⟩
          · exact .inl ⟨a, ih hrest, hreturn⟩
          · exact .inr ⟨e, ih hrest, rfl⟩
        · exact .inr ⟨e, hnested hlines, rfl⟩

theorem expandNested_mono {fuel fuel' : Nat} (hle : fuel ≤ fuel')
    (h : expandNested u read basePath fuel args visited = some r) :
    expandNested u read basePath fuel' args visited = some r := by
  induction fuel generalizing fuel' args visited r with
  | zero => exact absurd h (by simp [expandNested])
  | succ fuel ih =>
    obtain ⟨fuel', rfl⟩ : ∃ k, fuel' = k + 1 := ⟨fuel' - 1, by omega⟩
    exact expandArgs_mono (fun h => ih (Nat.le_of_succ_le_succ hle) h) h

/-- An expansion has one result. -/
theorem Expands.unique {r r' : Except ExpansionError (List (List Character))} (h : Expands u read basePath args r)
    (h' : Expands u read basePath args r') : r = r' := by
  obtain ⟨fuel, h⟩ := h
  obtain ⟨fuel', h'⟩ := h'
  obtain ⟨r, hr, rfl⟩ := Option.map_eq_some_iff.mp h
  obtain ⟨r', hr', rfl⟩ := Option.map_eq_some_iff.mp h'
  have hmax := expandNested_mono (Nat.le_max_left fuel fuel') hr
  have hmax' := expandNested_mono (Nat.le_max_right fuel fuel') hr'
  rw [Option.some.inj (hmax.symm.trans hmax')]

end

end Builra.ResponseFiles
