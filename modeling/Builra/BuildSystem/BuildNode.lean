import Builra.BuildSystem.DirectoryTasks

namespace Builra

open List

/-!
# `BuildSystem.BuildNode` — the attributes of nodes and the `nodes` section

`BuildNode::configureAttribute` with its errors, and `parseNodesMapping`, which creates the nodes of a build file
and configures them. Sections are taken as parsed: keys are scalars, and values are scalars or contain them.

`Declaration` is the part of this that declares directories, in each of the ways that there are for it, and
`parse_nodesSection` says what becomes of such nodes.
-/

open FileSystem (Name slash)
open Ownership (NodeType)

namespace DirectoryTasks

/-! ## Attributes -/

/-- The value of an attribute in the `nodes` section. -/
inductive AttributeValue where
  | scalar (value : Name)
  | sequence (values : List Name)
  | mapping (values : List (Name × Name))

def invalidValue (name value : Name) : Name :=
  Ownership.name "invalid value: '" ++ value ++ Ownership.name "' for attribute '" ++ name ++ Ownership.name "'"

def unexpectedAttribute (name : Name) : Name :=
  Ownership.name "unexpected attribute: '" ++ name ++ Ownership.name "'"

/-- The attributes that are true or false. -/
def configureBool (name value : Name) (whenTrue whenFalse : BuildNode) : Except Name BuildNode :=
  if value = Ownership.name "true" then .ok whenTrue
  else if value = Ownership.name "false" then .ok whenFalse
  else .error (invalidValue name value)

namespace BuildNode

/-- `is-directory: false` and the like change the type only if it is the one that they are about. -/
def unset (node : BuildNode) (type : NodeType) : BuildNode :=
  if node.type = type then { node with type := .plain } else node

/-- `configureAttribute` for a string. -/
def configureScalar (node : BuildNode) (name value : Name) : Except Name BuildNode :=
  if name = Ownership.name "type" then
    if value = Ownership.name "plain" then .ok { node with type := .plain }
    -- the type is the same as for `plain`
    else if value = Ownership.name "directory" then .ok { node with type := .plain }
    else if value = Ownership.name "directory-structure" then .ok { node with type := .directoryStructure }
    else if value = Ownership.name "virtual" then .ok { node with type := .virtual }
    else .error (invalidValue name value)
  else if name = Ownership.name "is-directory" then
    configureBool name value { node with type := .directory } (node.unset .directory)
  else if name = Ownership.name "is-directory-structure" then
    configureBool name value { node with type := .directoryStructure } (node.unset .directoryStructure)
  else if name = Ownership.name "is-virtual" then
    configureBool name value { node with type := .virtual }
      { node.unset .virtual with commandTimestamp := false }
  else if name = Ownership.name "is-command-timestamp" then
    configureBool name value { node with commandTimestamp := true, type := .virtual }
      { node with commandTimestamp := false }
  else if name = Ownership.name "is-mutated" then
    configureBool name value { node with mutated := true } { node with mutated := false }
  else if name = Ownership.name "content-exclusion-patterns" then .ok { node with exclusionPatterns := [value] }
  else .error (unexpectedAttribute name)

/-- `configureAttribute` for several strings. -/
def configureSequence (node : BuildNode) (name : Name) (values : List Name) : Except Name BuildNode :=
  if name = Ownership.name "content-exclusion-patterns" then .ok { node with exclusionPatterns := values }
  else if name = Ownership.name "must-scan-after-paths" then .ok { node with mustScanAfterPaths := values }
  else .error (unexpectedAttribute name)

/-- `BuildNode::configureAttribute`. -/
def configureAttribute (node : BuildNode) (name : Name) : AttributeValue → Except Name BuildNode
  | .scalar value => node.configureScalar name value
  | .sequence values => node.configureSequence name values
  | .mapping _ => .error (unexpectedAttribute name)

/-- The attributes of a node, in the order in which they stand. -/
def configure (node : BuildNode) : List (Name × AttributeValue) → Except Name BuildNode
  | [] => .ok node
  | (name, value) :: attributes =>
    match node.configureAttribute name value with
    | .ok node' => node'.configure attributes
    | .error message => .error message

end BuildNode

/-! ## The section -/

/-- The nodes of a build file by name. -/
abbrev Nodes := Name → Option BuildNode

/-- `BuildFileImpl::getOrCreateNode`. -/
def getOrCreateNode (nodes : Nodes) (name : Name) : BuildNode := (nodes name).getD (createNode name)

/-- `BuildFileImpl::parseNodesMapping`. -/
def parseNodesMapping (nodes : Nodes) : List (Name × List (Name × AttributeValue)) → Except Name Nodes
  | [] => .ok nodes
  | (name, attributes) :: rest =>
    match (getOrCreateNode nodes name).configure attributes with
    | .ok node => parseNodesMapping (Function.update nodes name (some node)) rest
    | .error message => .error message

/-- No attribute makes a node a produced one. -/
theorem producers_configureAttribute {node node' : BuildNode} {name : Name} {value : AttributeValue}
    (h : node.configureAttribute name value = .ok node') : node'.producers = node.producers := by
  have hbool : ∀ {name value : Name} {whenTrue whenFalse : BuildNode},
      configureBool name value whenTrue whenFalse = .ok node' → whenTrue.producers = node.producers →
      whenFalse.producers = node.producers → node'.producers = node.producers := by
    intro name value whenTrue whenFalse h htrue hfalse
    unfold configureBool at h
    split at h
    · cases h
      exact htrue
    · split at h
      · cases h
        exact hfalse
      · cases h
  have hunset : ∀ type, (node.unset type).producers = node.producers := by
    intro type
    unfold BuildNode.unset
    split <;> rfl
  cases value with
  | mapping values => cases h
  | sequence values =>
    simp only [BuildNode.configureAttribute, BuildNode.configureSequence] at h
    split at h
    · cases h
      rfl
    · split at h
      · cases h
        rfl
      · cases h
  | scalar value =>
    simp only [BuildNode.configureAttribute, BuildNode.configureScalar] at h
    -- each branch sets fields other than the producers, or is an error
    repeat' split at h
    all_goals first
      | exact hbool h rfl (hunset _)
      | exact hbool h rfl rfl
      | (cases h; rfl)
      | cases h

theorem producers_configure {node node' : BuildNode} {attributes : List (Name × AttributeValue)}
    (h : node.configure attributes = .ok node') : node'.producers = node.producers := by
  induction attributes generalizing node with
  | nil =>
    cases h
    rfl
  | cons entry attributes ih =>
    obtain ⟨name, value⟩ := entry
    rw [BuildNode.configure] at h
    cases hnode : node.configureAttribute name value with
    | error message =>
      rw [hnode] at h
      cases h
    | ok node₁ =>
      rw [hnode] at h
      rw [ih h, producers_configureAttribute hnode]

/-- **Without commands no node is produced**, whatever the section says. -/
theorem producers_parseNodesMapping {nodes nodes' : Nodes} {nodesSection : List (Name × List (Name × AttributeValue))}
    (h : parseNodesMapping nodes nodesSection = .ok nodes') (hnodes : ∀ n, (getOrCreateNode nodes n).producers = [])
    (n : Name) : (getOrCreateNode nodes' n).producers = [] := by
  induction nodesSection generalizing nodes with
  | nil =>
    cases h
    exact hnodes n
  | cons entry rest ih =>
    obtain ⟨name, attributes⟩ := entry
    rw [parseNodesMapping] at h
    cases hnode : (getOrCreateNode nodes name).configure attributes with
    | error message =>
      rw [hnode] at h
      cases h
    | ok node =>
      rw [hnode] at h
      refine ih h fun m => ?_
      by_cases hm : m = name
      · subst hm
        rw [getOrCreateNode, Function.update_self, Option.getD_some, producers_configure hnode]
        exact hnodes m
      · rw [getOrCreateNode, Function.update_of_ne hm]
        exact hnodes m

/-! ## Declared directories -/

/-- The ways to declare a directory. -/
inductive Way where
  /-- By a name that ends in a slash. -/
  | byName
  /-- `is-directory: true`. -/
  | isDirectory
  /-- `type: directory`. -/
  | typeDirectory
  /-- `is-directory-structure: true`. -/
  | isDirectoryStructure
deriving DecidableEq

/-- A node of a build file that is declared a directory. -/
structure Declaration where
  name : Name
  way : Way
  exclusionPatterns : List Name := []
  slash_of_way : way = .byName ∨ way = .isDirectoryStructure → name.getLast? = some slash

/-- The nodes of a build file, all of which are declared directories. -/
structure Description where
  declarations : List Declaration
  nodup : (declarations.map Declaration.name).Nodup

namespace Declaration

variable (d : Declaration)

/-- The attributes that stand for the declaration. -/
def attributes : List (Name × AttributeValue) :=
  (match d.way with
    | .byName => []
    | .isDirectory => [(Ownership.name "is-directory", .scalar (Ownership.name "true"))]
    | .typeDirectory => [(Ownership.name "type", .scalar (Ownership.name "directory"))]
    | .isDirectoryStructure => [(Ownership.name "is-directory-structure", .scalar (Ownership.name "true"))]) ++
  if d.exclusionPatterns = [] then []
  else [(Ownership.name "content-exclusion-patterns", .sequence d.exclusionPatterns)]

/-- The type of the node that the declaration leads to. -/
def nodeType : NodeType :=
  match d.way with
  | .byName | .isDirectory => .directory
  | .typeDirectory => .plain
  | .isDirectoryStructure => .directoryStructure

/-- The node that the declaration leads to. -/
def node : BuildNode := { type := d.nodeType, exclusionPatterns := d.exclusionPatterns }

theorem configure_attributes : (createNode d.name).configure d.attributes = .ok d.node := by
  have hpatterns : ∀ node : BuildNode, node.exclusionPatterns = [] → node.configure
      (if d.exclusionPatterns = [] then []
        else [(Ownership.name "content-exclusion-patterns", .sequence d.exclusionPatterns)]) =
      .ok { node with exclusionPatterns := d.exclusionPatterns } := by
    intro node hnode
    split
    · rename_i hnil
      rw [hnil, ← hnode]
      rfl
    · rfl
  have hcreated : ∃ type, createNode d.name = { type := type } ∧ (d.name.getLast? = some slash → type = .directory) := by
    unfold createNode
    split
    · exact ⟨_, rfl, fun _ => rfl⟩
    · rename_i hslash
      split
      · exact ⟨_, rfl, fun h => absurd h hslash⟩
      · exact ⟨_, rfl, fun h => absurd h hslash⟩
  obtain ⟨type, hcreated, htype⟩ := hcreated
  rw [hcreated, attributes, node, nodeType]
  cases hway : d.way with
  | byName =>
    rw [htype (d.slash_of_way (Or.inl hway))]
    exact hpatterns _ rfl
  | isDirectory => exact hpatterns { type := .directory } rfl
  | typeDirectory => exact hpatterns { type := .plain } rfl
  | isDirectoryStructure => exact hpatterns { type := .directoryStructure } rfl

end Declaration

namespace Description

def nodesSection (D : Description) : List (Name × List (Name × AttributeValue)) :=
  D.declarations.map fun d => (d.name, d.attributes)

/-- The nodes after the section was parsed. -/
def nodes (D : Description) : Nodes :=
  match parseNodesMapping (fun _ => none) D.nodesSection with
  | .ok nodes => nodes
  | .error _ => fun _ => none

end Description

theorem parseNodesMapping_declarations {l : List Declaration} (hnodup : (l.map Declaration.name).Nodup) (nodes : Nodes)
    (hnodes : ∀ d ∈ l, nodes d.name = none) :
    ∃ nodes', parseNodesMapping nodes (l.map fun d => (d.name, d.attributes)) = .ok nodes' ∧
      (∀ d ∈ l, nodes' d.name = some d.node) ∧ ∀ n, n ∉ l.map Declaration.name → nodes' n = nodes n := by
  induction l generalizing nodes with
  | nil => exact ⟨nodes, rfl, fun d hd => (by cases hd), fun n _ => rfl⟩
  | cons d l ih =>
    rw [map_cons, nodup_cons] at hnodup
    have hfirst : (getOrCreateNode nodes d.name).configure d.attributes = .ok d.node := by
      rw [getOrCreateNode, hnodes d mem_cons_self]
      exact d.configure_attributes
    have hne : ∀ d' ∈ l, d'.name ≠ d.name := by
      intro d' hd' hname
      exact hnodup.1 (hname ▸ mem_map_of_mem hd')
    obtain ⟨nodes', hparse, hmem, hother⟩ := ih hnodup.2 (Function.update nodes d.name (some d.node))
      fun d' hd' => by
        rw [Function.update_of_ne (hne d' hd')]
        exact hnodes d' (mem_cons_of_mem _ hd')
    refine ⟨nodes', ?_, fun d' hd' => ?_, fun n hn => ?_⟩
    · rw [map_cons, parseNodesMapping, hfirst]
      exact hparse
    · rcases mem_cons.mp hd' with rfl | hd'
      · rw [hother _ hnodup.1, Function.update_self]
      · exact hmem d' hd'
    · rw [map_cons, mem_cons, not_or] at hn
      rw [hother n hn.2, Function.update_of_ne hn.1]

namespace Description

variable (D : Description)

/-- **The section is parsed without errors**, each node is what its declaration leads to, and there are no others. -/
theorem parse_nodesSection : parseNodesMapping (fun _ => none) D.nodesSection = .ok D.nodes ∧
    (∀ d ∈ D.declarations, D.nodes d.name = some d.node) ∧
      ∀ n, n ∉ D.declarations.map Declaration.name → D.nodes n = none := by
  obtain ⟨nodes, hparse, hmem, hother⟩ := parseNodesMapping_declarations D.nodup (fun _ => none)
    fun _ _ => rfl
  have hnodes : D.nodes = nodes := by
    rw [Description.nodes, nodesSection, hparse]
  rw [hnodes]
  exact ⟨hparse, hmem, hother⟩

end Description

end DirectoryTasks

end Builra
