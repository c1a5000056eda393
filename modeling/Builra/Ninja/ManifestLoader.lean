import Builra.Ninja.CommandTask
import Builra.Ninja.Lexer
import Builra.Ninja.Manifest

namespace Builra

open List Option

/-!
# `Ninja.ManifestLoader` — build and default declarations

A build declaration evaluates its path strings in the current scope and looks up the nodes of what it gets. A default
declaration looks up its path strings as they are written. Nodes are never removed, so that a default target can be
compared with an output of any earlier declaration.
-/

namespace Ninja

/-! ## The source -/

/-- `StringRef(start, length)` -/
def Token.text (t : Token) : List UInt8 := t.start.take t.length

def isSimpleIdentifierChar (c : Int) : Bool :=
  (c ≥ 97 && c ≤ 122) || (c ≥ 65 && c ≤ 90) || (c ≥ 48 && c ≤ 57) || c = 95 || c = 45

structure Scope where
  entries : List (List UInt8 × List UInt8)
  rules : List (List UInt8)
deriving DecidableEq

/-- `lookupBinding`, in a scope and those around it. -/
def lookupBinding (name : List UInt8) : List Scope → List UInt8
  | [] => []
  | scope :: parents =>
    match scope.entries.lookup name with
    | some value => value
    | none => lookupBinding name parents

/-- What is left of a string, and what has been made of it. -/
structure Evaluation where
  rest : List UInt8
  result : List UInt8
  errors : List String

namespace Evaluation

def fail (e : Evaluation) (message : String) : Evaluation :=
  { e with rest := [], errors := e.errors ++ [message] }

variable (lookup : List UInt8 → List UInt8)

/-- A piece without `$`, and what the `$` behind it stands for. -/
def step (e : Evaluation) : Evaluation :=
  let result := e.result ++ e.rest.takeWhile (fun c => c ≠ 36)
  match e.rest.dropWhile (fun c => c ≠ 36) with
  | [] => { e with rest := [], result := result }
  | [_] => { e with result := result }.fail "invalid '$'-escape at end of string"
  | _ :: c :: rest =>
    if c = 10 then { e with rest := rest.dropWhile (fun c => isspace (char c)), result := result }
    else if c = 32 ∨ c = 58 ∨ c = 36 then { e with rest := rest, result := result ++ [c] }
    else if c = 123 then
      let name := rest.takeWhile (fun c => c ≠ 125)
      let closing := rest.dropWhile (fun c => c ≠ 125)
      if closing = [] then
        { e with result := result }.fail "invalid variable reference in string (missing trailing '\x7d')"
      else if name.all (fun c => isIdentifierChar (char c)) then
        { e with rest := closing.tail, result := result ++ lookup name }
      else { rest := closing.tail, result := result, errors := e.errors ++ ["invalid variable name in reference"] }
    else if isSimpleIdentifierChar (char c) then
      let name := c :: rest.takeWhile (fun c => isSimpleIdentifierChar (char c))
      { e with rest := rest.dropWhile (fun c => isSimpleIdentifierChar (char c)), result := result ++ lookup name }
    else { e with result := result }.fail "invalid '$'-escape (literal '$' should be written as '$$')"

def turn (e : Evaluation) : Option Evaluation :=
  if e.rest = [] then none else some (step lookup e)

end Evaluation

def evalString (lookup : List UInt8 → List UInt8) (string : List UInt8) : Evaluation :=
  Loop.turns (Evaluation.turn lookup) string.length ⟨string, [], []⟩

/-- A node is null if its path cannot be normalized. -/
structure Manifest.Command where
  rule : List UInt8
  outputs : List (Option Node)
  inputs : List (Option Node)
  numExplicitInputs : Nat
  numImplicitInputs : Nat
deriving DecidableEq

structure Manifest where
  nodes : List Node
  commands : List Manifest.Command
  defaultTargets : List Node
deriving DecidableEq

namespace Manifest

def find (m : Manifest) (path : List UInt8) : Option Node := m.nodes.find? (fun node => node.canonicalPath = path)

variable (workingDirectory : List UInt8)

def findNode (m : Manifest) (path0 : List UInt8) : Option Node :=
  (normalizePath workingDirectory path0).bind m.find

def findOrCreateNode (m : Manifest) (path0 : List UInt8) : Option Node × Manifest :=
  match normalizePath workingDirectory path0 with
  | none => (none, m)
  | some path =>
    match m.find path with
    | some node => (some node, m)
    | none => (some ⟨path, path0⟩, { m with nodes := m.nodes ++ [⟨path, path0⟩] })

end Manifest

structure Loader where
  manifest : Manifest
  /-- The current scope and those around it. -/
  scopes : List Scope
  /-- The files that include each other, and whether each has a scope of its own. -/
  includeStack : List Bool
  errors : List (String × Token)
deriving DecidableEq

namespace Loader

variable (workingDirectory : List UInt8)

variable (s : Loader)

def error (message : String) (tok : Token) : Loader := { s with errors := s.errors ++ [(message, tok)] }

/-- `evalString`, in the current scope. -/
def eval (tok : Token) : List UInt8 × Loader :=
  let e := evalString (fun name => lookupBinding name s.scopes) tok.text
  (e.result, { s with errors := s.errors ++ e.errors.map fun message => (message, tok) })

def modifyScope (f : Scope → Scope) : Loader := { s with scopes := s.scopes.modifyHead f }

def actOnBindingDecl (nameTok valueTok : Token) : Loader :=
  let (value, s) := s.eval valueTok
  s.modifyScope fun scope => { scope with entries := (nameTok.text, value) :: scope.entries }

/-- One name of a default declaration. -/
def addDefault (nameTok : Token) : Loader :=
  match s.manifest.findNode workingDirectory nameTok.text with
  | none => s.error "unknown target name" nameTok
  | some node => { s with manifest := { s.manifest with defaultTargets := s.manifest.defaultTargets ++ [node] } }

def actOnDefaultDecl (nameToks : List Token) : Loader := nameToks.foldl (addDefault workingDirectory) s

/-- An output or an input of a build declaration. -/
def resolveNode (message : String) (s : Loader) (token : Token) : Option Node × Loader :=
  let (path, s) := s.eval token
  let s := if path = [] then s.error message token else s
  let found := s.manifest.findOrCreateNode workingDirectory path
  (found.1, { s with manifest := found.2 })

def resolveNodes (message : String) (s : Loader) : List Token → List (Option Node) × Loader
  | [] => ([], s)
  | token :: tokens =>
    let (node, s) := s.resolveNode workingDirectory message token
    let (nodes, s) := s.resolveNodes message tokens
    (node :: nodes, s)

/-- The arguments of `actOnBeginBuildDecl`. -/
structure BuildDecl where
  nameTok : Token
  outputTokens : List Token
  inputTokens : List Token
  numExplicitInputs : Nat
  numImplicitInputs : Nat

def actOnBeginBuildDecl (d : BuildDecl) : Manifest.Command × Loader :=
  let found := s.scopes.head?.any fun scope => scope.rules.contains d.nameTok.text
  let s := if found then s else s.error "unknown rule" d.nameTok
  let (outputs, s) := s.resolveNodes workingDirectory "empty output path" d.outputTokens
  let (inputs, s) := s.resolveNodes workingDirectory "empty input path" d.inputTokens
  let rule := if found then d.nameTok.text else chars "phony"
  let decl := ⟨rule, outputs, inputs, d.numExplicitInputs, d.numImplicitInputs⟩
  (decl, { s with manifest := { s.manifest with commands := s.manifest.commands ++ [decl] } })

def actOnBeginRuleDecl (nameTok : Token) : Loader :=
  let s := if s.scopes.head?.any fun scope => scope.rules.contains nameTok.text then s.error "duplicate rule" nameTok else s
  s.modifyScope fun scope => { scope with rules := nameTok.text :: scope.rules }

/-- `enterFile`, for `include` and `subninja`. -/
def enterFile (isInclude : Bool) : Loader :=
  { s with scopes := if isInclude then s.scopes else ⟨[], []⟩ :: s.scopes, includeStack := (!isInclude) :: s.includeStack }

def exitCurrentFile : Loader :=
  { s with scopes := if s.includeStack.head? = some true then s.scopes.tail else s.scopes
           includeStack := s.includeStack.tail }

/-- What the parser has the loader do. The other declarations change neither nodes nor scopes nor default targets. -/
inductive Action where
  | binding (nameTok valueTok : Token)
  | default (nameToks : List Token)
  | beginBuild (d : BuildDecl)
  | beginRule (nameTok : Token)
  | enter (isInclude : Bool)
  | exit

def act : Action → Loader
  | .binding nameTok valueTok => s.actOnBindingDecl nameTok valueTok
  | .default nameToks => s.actOnDefaultDecl workingDirectory nameToks
  | .beginBuild d => (s.actOnBeginBuildDecl workingDirectory d).2
  | .beginRule nameTok => s.actOnBeginRuleDecl nameTok
  | .enter isInclude => s.enterFile isInclude
  | .exit => s.exitCurrentFile

def run (actions : List Action) : Loader := actions.foldl (act workingDirectory) s

end Loader

/-! ## Nodes -/

namespace Manifest

variable {workingDirectory path0 : List UInt8} {m m' m'' : Manifest} {node? : Option Node}

/-- Nodes stay where they are found. -/
def Extends (m m' : Manifest) : Prop := ∀ path node, m.find path = some node → m'.find path = some node

theorem extends_of_nodes (h : m'.nodes = m.nodes) : Extends m m' := by
  intro path node hfind
  unfold find at hfind ⊢
  rw [h]
  exact hfind

theorem Extends.trans (h : Extends m m') (h' : Extends m' m'') : Extends m m'' := fun path node hfind =>
  h' path node (h path node hfind)

/-- The node of a path, which it has if it can be normalized. -/
def IsNode (workingDirectory : List UInt8) (m : Manifest) (path0 : List UInt8) (node? : Option Node) : Prop :=
  m.findNode workingDirectory path0 = node? ∧ (node? = none → normalizePath workingDirectory path0 = none)

theorem IsNode.extends (h : IsNode workingDirectory m path0 node?) (hm : Extends m m') :
    IsNode workingDirectory m' path0 node? := by
  obtain ⟨rfl, hnone⟩ := h
  refine ⟨?_, hnone⟩
  unfold findNode at hnone ⊢
  cases hpath : normalizePath workingDirectory path0 with
  | none => rfl
  | some path =>
    rw [hpath] at hnone
    cases hfind : m.find path with
    | none => exact absurd (hnone hfind) (some_ne_none path)
    | some node => exact (hm path node hfind).trans hfind.symm

theorem canonicalPath_of_find {path : List UInt8} {node : Node} (h : m.find path = some node) :
    node.canonicalPath = path := by
  have hpath := find?_some h
  exact of_decide_eq_true hpath

theorem findOrCreateNode_spec (workingDirectory : List UInt8) (m : Manifest) (path0 : List UInt8) :
    Extends m (m.findOrCreateNode workingDirectory path0).2 ∧
      IsNode workingDirectory (m.findOrCreateNode workingDirectory path0).2 path0
        (m.findOrCreateNode workingDirectory path0).1 := by
  unfold findOrCreateNode IsNode findNode
  cases hpath : normalizePath workingDirectory path0 with
  | none => exact ⟨extends_of_nodes rfl, rfl, fun _ => rfl⟩
  | some path =>
    cases hfind : m.find path with
    | some node =>
      simp only [hfind]
      exact ⟨extends_of_nodes rfl, hfind, fun h => nomatch h⟩
    | none =>
      simp only [hfind]
      refine ⟨?_, ?_, fun h => nomatch h⟩
      · intro path' node hnode
        unfold find at hnode ⊢
        rw [find?_append, hnode, some_or]
      · rw [find] at hfind
        rw [bind_some, find, find?_append, hfind, none_or]
        exact find?_cons_of_pos (decide_eq_true rfl)

end Manifest

/-! ## Actions -/

namespace Loader

open Manifest

variable (workingDirectory : List UInt8) {s : Loader} {token : Token}

theorem extends_resolveNode (message : String) (s : Loader) (token : Token) :
    Extends s.manifest (s.resolveNode workingDirectory message token).2.manifest ∧
      (s.resolveNode workingDirectory message token).2.scopes = s.scopes ∧
      IsNode workingDirectory (s.resolveNode workingDirectory message token).2.manifest
        (s.eval token).1 (s.resolveNode workingDirectory message token).1 := by
  obtain ⟨hextends, hnode⟩ := findOrCreateNode_spec workingDirectory s.manifest (s.eval token).1
  unfold resolveNode
  simp only
  by_cases hempty : (s.eval token).1 = []
  · rw [if_pos hempty]
    exact ⟨hextends, rfl, hnode⟩
  · rw [if_neg hempty]
    exact ⟨hextends, rfl, hnode⟩

theorem resolveNodes_spec (message : String) (s : Loader) (tokens : List Token) :
    Extends s.manifest (s.resolveNodes workingDirectory message tokens).2.manifest ∧
      (s.resolveNodes workingDirectory message tokens).2.scopes = s.scopes ∧
      ∀ (i : Nat) token, tokens[i]? = some token → ∃ node?, (s.resolveNodes workingDirectory message tokens).1[i]? = some node? ∧
        IsNode workingDirectory (s.resolveNodes workingDirectory message tokens).2.manifest (s.eval token).1 node? := by
  induction tokens generalizing s with
  | nil => exact ⟨extends_of_nodes rfl, rfl, fun i token h => nomatch h⟩
  | cons token tokens ih =>
    obtain ⟨hextends, hscopes, hnode⟩ := extends_resolveNode workingDirectory message s token
    obtain ⟨hextends', hscopes', hnodes⟩ := ih (s.resolveNode workingDirectory message token).2
    refine ⟨Extends.trans hextends hextends', hscopes'.trans hscopes, ?_⟩
    intro i token' htoken
    cases i with
    | zero =>
      cases htoken
      exact ⟨_, rfl, hnode.extends hextends'⟩
    | succ i =>
      obtain ⟨node?, hi, hnode'⟩ := hnodes i token' htoken
      refine ⟨node?, hi, ?_⟩
      unfold eval at hnode' ⊢
      rwa [hscopes] at hnode'

theorem eval_of_scopes {s' : Loader} (h : s'.scopes = s.scopes) (token : Token) : (s'.eval token).1 = (s.eval token).1 := by
  unfold eval
  rw [h]

theorem build_spec (s : Loader) (d : BuildDecl) :
    Extends s.manifest (s.actOnBeginBuildDecl workingDirectory d).2.manifest ∧
      ∀ (i : Nat) token, d.outputTokens[i]? = some token →
        ∃ node?, (s.actOnBeginBuildDecl workingDirectory d).1.outputs[i]? = some node? ∧
          IsNode workingDirectory (s.actOnBeginBuildDecl workingDirectory d).2.manifest (s.eval token).1 node? := by
  have hrule : ∀ found : Bool, (if found then s else s.error "unknown rule" d.nameTok).scopes = s.scopes ∧
      (if found then s else s.error "unknown rule" d.nameTok).manifest = s.manifest := by
    intro found
    cases found <;> exact ⟨rfl, rfl⟩
  unfold actOnBeginBuildDecl
  simp only
  obtain ⟨hscopes, hmanifest⟩ := hrule (s.scopes.head?.any fun scope => scope.rules.contains d.nameTok.text)
  generalize (if (s.scopes.head?.any fun scope => scope.rules.contains d.nameTok.text) = true then s
    else s.error "unknown rule" d.nameTok) = s' at hscopes hmanifest ⊢
  obtain ⟨hextends, -, hnodes⟩ := resolveNodes_spec workingDirectory "empty output path" s' d.outputTokens
  obtain ⟨hextends', -, -⟩ := resolveNodes_spec workingDirectory "empty input path"
    (s'.resolveNodes workingDirectory "empty output path" d.outputTokens).2 d.inputTokens
  rw [hmanifest] at hextends
  refine ⟨Extends.trans hextends hextends', ?_⟩
  intro i token htoken
  obtain ⟨node?, hi, hnode⟩ := hnodes i token htoken
  rw [eval_of_scopes hscopes] at hnode
  exact ⟨node?, hi, hnode.extends hextends'⟩

theorem nodes_defaults (s : Loader) (names : List Token) :
    (s.actOnDefaultDecl workingDirectory names).manifest.nodes = s.manifest.nodes := by
  unfold actOnDefaultDecl
  induction names generalizing s with
  | nil => rfl
  | cons name names ih =>
    rw [foldl_cons, ih]
    unfold addDefault
    split <;> rfl

theorem extends_act (s : Loader) (a : Action) : Extends s.manifest (s.act workingDirectory a).manifest := by
  cases a with
  | binding nameTok valueTok | enter isInclude | exit => exact extends_of_nodes rfl
  | default nameToks => exact extends_of_nodes (nodes_defaults workingDirectory s nameToks)
  | beginBuild d => exact (build_spec workingDirectory s d).1
  | beginRule nameTok =>
    refine extends_of_nodes ?_
    show (if _ then s.error "duplicate rule" nameTok else s).manifest.nodes = _
    split <;> rfl

theorem extends_run (s : Loader) (actions : List Action) : Extends s.manifest (s.run workingDirectory actions).manifest := by
  unfold run
  induction actions generalizing s with
  | nil => exact extends_of_nodes rfl
  | cons a actions ih => exact Extends.trans (extends_act workingDirectory s a) (ih (s.act workingDirectory a))

/-! ## Default targets -/

/-- A default declaration adds a node to the default targets, and nothing else changes. -/
def Adds (s : Loader) (nameTok : Token) (node : Node) : Prop :=
  s.actOnDefaultDecl workingDirectory [nameTok] =
    { s with manifest := { s.manifest with defaultTargets := s.manifest.defaultTargets ++ [node] } }

theorem adds_iff {node : Node} :
    Adds workingDirectory s token node ↔ s.manifest.findNode workingDirectory token.text = some node := by
  unfold Adds
  show s.addDefault workingDirectory token = _ ↔ _
  unfold addDefault
  cases hnode : s.manifest.findNode workingDirectory token.text with
  | none =>
    refine iff_of_false (fun h => ?_) (fun h => nomatch h)
    have herrors : s.errors ++ [("unknown target name", token)] = s.errors := congrArg Loader.errors h
    exact absurd (append_right_eq_self.mp herrors) (cons_ne_nil _ _)
  | some node' =>
    constructor
    · intro h
      have htargets : s.manifest.defaultTargets ++ [node'] = s.manifest.defaultTargets ++ [node] :=
        congrArg (fun s => s.manifest.defaultTargets) h
      exact congrArg some (cons.inj (append_cancel_left htargets)).1
    · rintro ⟨⟩
      rfl

/-- The path string as it is written and what it stands for are normalized to one path. -/
def SamePath (s : Loader) (token : Token) : Prop :=
  ∃ path, normalizePath workingDirectory token.text = some path ∧
    normalizePath workingDirectory (s.eval token).1 = some path

/-- An output of a build declaration is a default target after a default declaration of its path string. -/
def Defaults (s : Loader) (d : BuildDecl) (i : Nat) (later : List Action) (token : Token) : Prop :=
  ∃ node, (s.actOnBeginBuildDecl workingDirectory d).1.outputs[i]? = some (some node) ∧
    Adds workingDirectory ((s.actOnBeginBuildDecl workingDirectory d).2.run workingDirectory later) token node

theorem defaults_iff (s : Loader) (d : BuildDecl) (i : Nat) (later : List Action) (token : Token)
    (htoken : d.outputTokens[i]? = some token) :
    Defaults workingDirectory s d i later token ↔ SamePath workingDirectory s token := by
  obtain ⟨node?, houtput, hnode⟩ := (build_spec workingDirectory s d).2 i token htoken
  have hlater := hnode.extends (extends_run workingDirectory _ later)
  unfold Defaults
  simp only [adds_iff, houtput]
  generalize (s.actOnBeginBuildDecl workingDirectory d).2.run workingDirectory later = t at hlater ⊢
  obtain ⟨hfound, hnone⟩ := hlater
  unfold findNode at hfound ⊢
  constructor
  · rintro ⟨node, ⟨⟩, hdefault⟩
    obtain ⟨path, hpath, hfind⟩ := bind_eq_some_iff.mp hdefault
    obtain ⟨path', hpath', hfind'⟩ := bind_eq_some_iff.mp hfound
    exact ⟨path, hpath, by rw [hpath', ← canonicalPath_of_find hfind', canonicalPath_of_find hfind]⟩
  · rintro ⟨path, hpath, hpath'⟩
    rw [hpath'] at hfound hnone
    cases node? with
    | none => exact absurd (hnone rfl) (some_ne_none path)
    | some node => exact ⟨node, rfl, by rw [hpath]; exact hfound⟩

/-- The loader at the start. -/
def initial : Loader := ⟨⟨[], [], []⟩, [⟨[], [chars "phony"]⟩], [], []⟩

def phonyToken : Token := ⟨chars "phony", .identifier, 5, 1, 12⟩

theorem defaults_word : Defaults [47] initial ⟨phonyToken, [phonyToken], [], 0, 0⟩ 0 [] phonyToken ↔
    SamePath [47] initial phonyToken :=
  defaults_iff [47] initial ⟨phonyToken, [phonyToken], [], 0, 0⟩ 0 [] phonyToken rfl

/-- `a$ b`, for a path with a space. -/
def escapedToken : Token := ⟨chars "a$ b", .string, 4, 1, 6⟩

/-- The node of the output has another path than the one that is looked up. -/
theorem not_defaults_escaped : ¬ Defaults [47] initial ⟨phonyToken, [escapedToken], [], 0, 0⟩ 0 [] escapedToken := by
  rintro ⟨node, -, hadds⟩
  have hfind := (adds_iff [47]).mp hadds
  have hnone : findNode [47]
      ((initial.actOnBeginBuildDecl [47] ⟨phonyToken, [escapedToken], [], 0, 0⟩).2.run [47] []).manifest
      escapedToken.text = none := by decide
  rw [hnone] at hfind
  cases hfind

end Loader

end Ninja

end Builra
