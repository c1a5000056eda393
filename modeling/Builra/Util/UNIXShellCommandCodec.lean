import Builra.Util.Character

namespace Builra

open List

/-!
# `Util.UNIXShellCommandCodec` — writing command lines for a shell

`encode` quotes the arguments of a command, by fragments between single quotes or by characters, and joins them with
spaces. Whether a character is special is looked up for characters of one scalar only.
-/

/-- The end of a fragment. -/
def completeFragment (out : List (List Character)) (s : List Character) : List (List Character) :=
  if s = [] then out else out ++ [s]

/-- A turn of the loop of `fragment`. -/
def fragmentTurn (around : Character) : List (List Character) × List Character → Character →
    List (List Character) × List Character
  | (out, s), c => if c = around then (completeFragment out s ++ [[c]], []) else (out, s ++ [c])

/-- Split a string on the `around` character, including the instances of `around` itself. -/
def fragment (around : Character) (string : List Character) : List (List Character) :=
  let (out, s) := string.foldl (fragmentTurn around) ([], [])
  completeFragment out s

open Character

namespace UNIXShellCommandCodec

/-! ## The source -/

inductive EncodingStrategy where
  | singleQuotes
  | backslashes
deriving DecidableEq, Repr

inductive EncodingBehavior where
  | fullCommandLine
  | argumentsOnly
deriving DecidableEq, Repr

/-- These must be quoted if they are the first item. -/
def shellKeywords : List (List Character) :=
  ["if", "then", "else", "elif", "fi", "case", "esac", "for", "select", "while", "until", "do", "done", "in", "function",
    "time", "\x7b", "\x7d", "!", "[[", "]]"].map ofLiteral

end UNIXShellCommandCodec

open UNIXShellCommandCodec

structure UNIXShellCommandCodec where
  encodingStrategy : EncodingStrategy
  encodingBehavior : EncodingBehavior
  joinSequence : List Character
  /-- Arguments are joined by one or more spaces. -/
  isValid : joinSequence = [ofScalar ' '] ∨ (joinSequence ≠ [] ∧ ¬ ∃ c ∈ joinSequence, c ≠ ofScalar ' ')

namespace UNIXShellCommandCodec

variable (encodingStrategy : EncodingStrategy)

def new (encodingBehavior : EncodingBehavior) : UNIXShellCommandCodec where
  encodingStrategy
  encodingBehavior
  joinSequence := [ofScalar ' ']
  isValid := .inl rfl

/-- Nothing for an invalid join sequence. -/
def new? (joinSequence : List Character) (encodingBehavior : EncodingBehavior) :
    Option UNIXShellCommandCodec :=
  if h : joinSequence = [ofScalar ' '] ∨ (joinSequence ≠ [] ∧ ¬ ∃ c ∈ joinSequence, c ≠ ofScalar ' ') then
    some { encodingStrategy, encodingBehavior, joinSequence, isValid := h }
  else none

def isSpecialScalar (c : Char) : Bool :=
  c.toNat ≤ 0x24 || (0x26 ≤ c.toNat && c.toNat ≤ 0x2A) || (0x3B ≤ c.toNat && c.toNat ≤ 0x3F) ||
    (0x5B ≤ c.toNat && c.toNat ≤ 0x5E) || c.toNat = 0x60 || (0x7B ≤ c.toNat && c.toNat ≤ 0x7F)

def isSpecialShellCharacter (ch : Character) : Bool := ch.only?.any isSpecialScalar

def isShellKeyword (string : List Character) : Bool := string ∈ shellKeywords

variable (codec : UNIXShellCommandCodec)

def needsShellKeywordEncoding (index : Nat) (value : List Character) : Bool :=
  codec.encodingBehavior = .fullCommandLine && index = 0 && isShellKeyword value

/-- How a fragment is written with the strategy `singleQuotes`. -/
def encodeFragment (argIndex : Nat) (f : List Character) : List Character :=
  if f = [ofScalar '\''] then [ofScalar '\\', ofScalar '\'']
  else if codec.needsShellKeywordEncoding argIndex f || f.any isSpecialShellCharacter then
    ofScalar '\'' :: f ++ [ofScalar '\'']
  else f

/-- How a character is written with the strategy `backslashes`. -/
def encodeCharacter (ch : Character) : List Character :=
  if ch = ofScalar '\n' then [ofScalar '\'', ofScalar '\n', ofScalar '\'']
  else if isSpecialShellCharacter ch then [ofScalar '\\', ch]
  else [ch]

def encodeArg (argIndex : Nat) (arg : List Character) : List Character :=
  match codec.encodingStrategy with
  | .singleQuotes => (fragment (ofScalar '\'') arg).flatMap (codec.encodeFragment argIndex)
  | .backslashes =>
    if codec.needsShellKeywordEncoding argIndex arg then ofScalar '\'' :: arg ++ [ofScalar '\'']
    else arg.flatMap encodeCharacter

def encode (sequence : List (List Character)) : List Character :=
  codec.joinSequence.intercalate (sequence.zipIdx.map (fun (arg, argIndex) => codec.encodeArg argIndex arg))

/-- No character is special. -/
def IsBare (f : List Character) : Prop := ∀ k ∈ f, isSpecialShellCharacter k = false

/-! ## Fragments -/

end UNIXShellCommandCodec

section

variable {around : Character} {f string : List Character}

theorem foldl_fragmentTurn_of_notMem (h : around ∉ f) (out : List (List Character)) (s : List Character) :
    f.foldl (fragmentTurn around) (out, s) = (out, s ++ f) := by
  induction f generalizing s with
  | nil => rw [append_nil]; rfl
  | cons c f ih =>
    have hc : c ≠ around := fun hc => h (hc ▸ mem_cons_self)
    rw [foldl_cons]
    show f.foldl (fragmentTurn around) (if c = around then _ else (out, s ++ [c])) = _
    rw [if_neg hc, ih (fun hmem => h (mem_cons_of_mem c hmem)), append_assoc]
    rfl

/-- The fragments that are complete stay in front. -/
theorem foldl_fragmentTurn_append (out : List (List Character)) (s string : List Character) :
    string.foldl (fragmentTurn around) (out, s) =
      (out ++ (string.foldl (fragmentTurn around) ([], s)).1, (string.foldl (fragmentTurn around) ([], s)).2) := by
  induction string generalizing out s with
  | nil =>
    show (out, s) = (out ++ [], s)
    rw [append_nil]
  | cons c string ih =>
    rw [foldl_cons, foldl_cons]
    by_cases hc : c = around
    · have hturn : ∀ out, fragmentTurn around (out, s) c = (completeFragment out s ++ [[c]], []) := fun out => if_pos hc
      have hcomplete : completeFragment out s = out ++ completeFragment [] s := by
        unfold completeFragment
        split
        · rw [append_nil]
        · rfl
      rw [hturn, hturn, ih (completeFragment out s ++ [[c]]), ih (completeFragment [] s ++ [[c]]), hcomplete]
      simp only [append_assoc]
    · have hturn : ∀ out, fragmentTurn around (out, s) c = (out, s ++ [c]) := fun out => if_neg hc
      rw [hturn, hturn, ih out]

theorem fragment_of_notMem (h : around ∉ f) : fragment around f = if f = [] then [] else [f] := by
  unfold fragment
  rw [foldl_fragmentTurn_of_notMem h]
  rfl

/-- The first fragment is what stands before `around`. -/
theorem fragment_append (h : around ∉ f) (string : List Character) :
    fragment around (f ++ around :: string) = (if f = [] then [] else [f]) ++ [around] :: fragment around string := by
  have hturn : fragmentTurn around ([], f) around = ((if f = [] then [] else [f]) ++ [[around]], []) := if_pos rfl
  unfold fragment
  rw [foldl_append, foldl_fragmentTurn_of_notMem h, nil_append, foldl_cons, hturn,
    foldl_fragmentTurn_append]
  generalize string.foldl (fragmentTurn around) ([], []) = r
  obtain ⟨out, s⟩ := r
  show completeFragment ((if f = [] then [] else [f]) ++ [[around]] ++ out) s = _ ++ [around] :: completeFragment out s
  unfold completeFragment
  split
  · simp
  · simp

/-- The fragments make up the string. -/
theorem flatten_fragment (around : Character) (string : List Character) : (fragment around string).flatten = string := by
  induction hn : string.length using Nat.strong_induction_on generalizing string with
  | _ n ih =>
    subst hn
    by_cases hmem : around ∈ string
    · obtain ⟨f, rest, rfl, hf⟩ := eq_append_cons_of_mem hmem
      have hrest := ih rest.length (by simp only [length_append, length_cons]; omega) rest rfl
      rw [fragment_append hf, flatten_append, flatten_cons, hrest]
      split
      case isTrue hnil => rw [hnil]; rfl
      case isFalse => simp
    · rw [fragment_of_notMem hmem]
      split
      case isTrue hnil => rw [hnil]; rfl
      case isFalse => simp

/-- A fragment is the separator itself, or has no separator. -/
theorem mem_fragment (h : f ∈ fragment around string) : f ≠ [] ∧ (f = [around] ∨ around ∉ f) := by
  induction hn : string.length using Nat.strong_induction_on generalizing string with
  | _ n ih =>
    subst hn
    have hfirst : ∀ {l : List Character}, around ∉ l → f ∈ (if l = [] then [] else [l]) → f ≠ [] ∧ (f = [around] ∨ around ∉ f) := by
      intro l hl hmem
      split at hmem
      · exact absurd hmem (by simp)
      · obtain rfl := mem_singleton.mp hmem
        exact ⟨by assumption, .inr hl⟩
    by_cases hmem : around ∈ string
    · obtain ⟨l, rest, rfl, hl⟩ := eq_append_cons_of_mem hmem
      rw [fragment_append hl, mem_append, mem_cons] at h
      rcases h with h | rfl | h
      · exact hfirst hl h
      · exact ⟨cons_ne_nil _ _, .inl rfl⟩
      · exact ih rest.length (by simp only [length_append, length_cons]; omega) h rfl
    · rw [fragment_of_notMem hmem] at h
      exact hfirst hmem h

end

end Builra
