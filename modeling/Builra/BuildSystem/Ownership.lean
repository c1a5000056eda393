import Builra.Lib.Subpath
import Mathlib.Data.List.Pairwise
import Mathlib.Logic.Equiv.List

namespace Builra

open List

/-!
# `BuildSystem.Ownership` — which command owns a path

`OwnershipAnalysis` of the build file loader. The outputs of all commands are sorted by the length of their
names, so that a directory comes before the paths in it, and then given an owner in one pass. The owner of a path
is found by the first match in a map that is ordered by the addresses of the nodes.

Nothing of this order can be seen: `establishOwnerships_spec` says when the pass succeeds and who owns a path, for
every order of the commands, every result of the sort and every placement of the nodes.

Nodes and commands are kept in maps by their names, so a name stands for the object here.
-/

open Subpath

namespace Ownership

abbrev Name := List UInt8

def slash : UInt8 := '/'.toUInt8

/-- `BuildNode::NodeType`. -/
inductive NodeType where
  | plain
  | directory
  | directoryStructure
  | virtual
deriving DecidableEq, Repr

/-- What the analysis reads and changes of a node. -/
structure BuildNode where
  type : NodeType := .plain
  producers : List Name := []
  mustScanAfterPaths : List Name := []

def BuildNode.isVirtual (node : BuildNode) : Bool := node.type = .virtual

def BuildNode.isDirectory (node : BuildNode) : Bool := node.type = .directory

structure Command where
  isExternalCommand : Bool := true
  repairViaOwnershipAnalysis : Bool := true
  inputs : List Name := []
  outputs : List Name := []

/-- The nodes and the commands of a loaded build file. -/
structure Objects where
  node : Name → BuildNode
  command : Name → Command

variable (objects : Objects)

/-- The command is included in the analysis. -/
def Objects.participates (c : Name) : Bool :=
  (objects.command c).isExternalCommand && (objects.command c).repairViaOwnershipAnalysis

/-! ## The analysis -/

/-- The nodes with their commands that the constructor extracts, in the order of the commands. -/
def outputsOf (commands : List Name) : List (Name × Name) :=
  commands.flatMap fun c =>
    ((objects.command c).outputs.filter fun n => !(objects.node n).isVirtual).map fun n => (n, c)

def directoryInputsOf (commands : List Name) : List (Name × Name) :=
  commands.flatMap fun c =>
    ((objects.command c).inputs.filter fun n => (objects.node n).isDirectory).map fun n => (n, c)

/-- A result of `std::sort` of the outputs: it keeps no order among names of one length. -/
structure SortedOutputs (objects : Objects) (commands : List Name) where
  outputNodesAndCommands : List (Name × Name)
  perm : outputNodesAndCommands.Perm (outputsOf objects commands)
  sorted : outputNodesAndCommands.Pairwise fun a b => a.1.length ≤ b.1.length

/-- The two maps of the analysis, as their entries in the order of the addresses of the nodes. -/
structure Owners where
  includedPaths : List (Name × Name) := []
  excludedPaths : List (Name × Name) := []

/-- `paths[node] = command`. -/
def setEntry (address : Name ↪ Nat) (paths : List (Name × Name)) (n c : Name) : List (Name × Name) :=
  (paths.filter fun entry => entry.1 ≠ n).orderedInsert (fun a b => address a.1 ≤ address b.1) (n, c)

/-- The condition that `includedOwnerOf` searches with. -/
def ownsPath (name inputPath : Name) : Bool :=
  if name.getLast? = some slash then name.isPrefixOf inputPath else (name ++ [slash]).isPrefixOf inputPath

variable (owners : Owners)

def includedOwnerOf (inputPath : Name) : Option Name :=
  (owners.includedPaths.find? fun entry => ownsPath entry.1 inputPath).map Prod.snd

def excludedOwnerOf (inputPath : Name) : Option Name :=
  (owners.excludedPaths.find? fun entry => inputPath = entry.1).map Prod.snd

def isIncludedUnownedNode (n : Name) : Bool :=
  (includedOwnerOf owners n).isNone && (excludedOwnerOf owners n).isNone

/-- What `cannotLoadDueToMultipleProducers` is told. -/
structure MultipleProducers where
  output : Name
  commands : List Name
deriving DecidableEq

/-- The loop of `establishOwnerships`, from the owners found so far. -/
def establish (objects : Objects) (address : Name ↪ Nat) :
    List (Name × Name) → Owners → Except MultipleProducers Owners
  | [], owners => .ok owners
  | (n, c) :: rest, owners =>
    if objects.participates c then
      match includedOwnerOf owners n with
      | none =>
        establish objects address rest
          { owners with includedPaths := setEntry address owners.includedPaths n c }
      | some owner =>
        -- a path and some of its subpaths may be outputs of one command
        if owner = c then establish objects address rest owners else .error ⟨n, [c, owner]⟩
    else
      establish objects address rest { owners with excludedPaths := setEntry address owners.excludedPaths n c }

def establishOwnerships (objects : Objects) (address : Name ↪ Nat) (outputs : List (Name × Name)) :
    Except MultipleProducers Owners :=
  establish objects address outputs {}

/-! ## Lookups -/

theorem ownsPath_iff {n x : Name} : ownsPath n x = true ↔ Below slash n x := by
  unfold ownsPath Below closed
  split <;> exact isPrefixOf_iff_prefix

variable {address : Name ↪ Nat} {owners : Owners}

theorem mem_setEntry {paths : List (Name × Name)} {n c : Name} {entry : Name × Name} :
    entry ∈ setEntry address paths n c ↔ entry = (n, c) ∨ entry ∈ paths ∧ entry.1 ≠ n := by
  simp [setEntry, mem_orderedInsert]

theorem includedOwnerOf_none {x : Name} :
    includedOwnerOf owners x = none ↔ ∀ entry ∈ owners.includedPaths, ¬Below slash entry.1 x := by
  simp [includedOwnerOf, ← ownsPath_iff]

theorem includedOwnerOf_some {x c : Name} (h : includedOwnerOf owners x = some c) :
    ∃ n, (n, c) ∈ owners.includedPaths ∧ Below slash n x := by
  obtain ⟨⟨n, c'⟩, hfind, rfl⟩ := Option.map_eq_some_iff.mp h
  exact ⟨n, mem_of_find?_eq_some hfind, ownsPath_iff.mp (by simpa using find?_some hfind)⟩

theorem mem_outputsOf {objects : Objects} {commands : List Name} {n c : Name} :
    (n, c) ∈ outputsOf objects commands
      ↔ c ∈ commands ∧ n ∈ (objects.command c).outputs ∧ (objects.node n).isVirtual = false := by
  simp [outputsOf]

/-! ## The invariant of the pass -/

/-- The maps after the outputs `done`: the included paths are the topmost of the outputs of participating commands,
one entry a name, and every other such output lies under a path of its own command. -/
structure Recorded (objects : Objects) (done : List (Name × Name)) (owners : Owners) : Prop where
  names : owners.includedPaths.Pairwise fun a b => a.1 ≠ b.1
  included : ∀ entry ∈ owners.includedPaths, entry ∈ done ∧ objects.participates entry.2 = true
  separate : ∀ a ∈ owners.includedPaths, ∀ b ∈ owners.includedPaths, a.1 ≠ b.1 → ¬Below slash a.1 b.1
  covered : ∀ q c, (q, c) ∈ done → objects.participates c = true →
    ∃ entry ∈ owners.includedPaths, entry.1 = q ∨ Below slash entry.1 q ∧ entry.2 = c
  excluded : ∀ entry ∈ owners.excludedPaths, entry ∈ done ∧ objects.participates entry.2 = false
  excludedCovered : ∀ q c, (q, c) ∈ done → objects.participates c = false →
    ∃ entry ∈ owners.excludedPaths, entry.1 = q

theorem recorded_nil (objects : Objects) : Recorded objects [] {} where
  names := List.Pairwise.nil
  included := by simp
  separate := by simp
  covered := by simp
  excluded := by simp
  excludedCovered := by simp

section Step

variable {objects : Objects} {address : Name ↪ Nat} {done : List (Name × Name)} {owners : Owners} {n c : Name}

theorem names_setEntry {paths : List (Name × Name)} (h : paths.Pairwise fun a b => a.1 ≠ b.1) :
    (setEntry address paths n c).Pairwise fun a b => a.1 ≠ b.1 := by
  refine ((perm_orderedInsert _ _ _).pairwise_iff fun hab => hab.symm).mpr ?_
  refine pairwise_cons.mpr ⟨?_, h.filter _⟩
  intro entry hentry
  have hne : entry.1 ≠ n := by simpa using (mem_filter.mp hentry).2
  exact hne.symm

section

variable (h : Recorded objects done owners)
include h

/-- A new included path. The outputs before it are not longer, so none of them lies under it. -/
theorem Recorded.setOwner (hsorted : ∀ entry ∈ done, entry.1.length ≤ n.length)
    (hc : objects.participates c = true) (hnone : includedOwnerOf owners n = none) :
    Recorded objects (done ++ [(n, c)])
      { owners with includedPaths := setEntry address owners.includedPaths n c } := by
  have hnotBelow : ∀ entry ∈ done, entry.1 ≠ n → ¬Below slash n entry.1 := by
    intro entry hentry hne hbelow
    have hlt := hbelow.length_lt hne.symm
    have hle := hsorted entry hentry
    omega
  refine ⟨names_setEntry h.names, ?_, ?_, ?_, ?_, ?_⟩
  · intro entry hentry
    rcases mem_setEntry.mp hentry with rfl | ⟨hold, -⟩
    · exact ⟨by simp, hc⟩
    · exact ⟨mem_append_left _ (h.included entry hold).1, (h.included entry hold).2⟩
  · intro a ha b hb hne
    rcases mem_setEntry.mp ha with rfl | ⟨ha, -⟩
    · rcases mem_setEntry.mp hb with rfl | ⟨hb, -⟩
      · exact absurd rfl hne
      · exact hnotBelow b (h.included b hb).1 hne.symm
    · rcases mem_setEntry.mp hb with rfl | ⟨hb, -⟩
      · exact includedOwnerOf_none.mp hnone a ha
      · exact h.separate a ha b hb hne
  · intro q d hq hd
    rcases mem_append.mp hq with hq | hq
    · obtain ⟨entry, hentry, hcover⟩ := h.covered q d hq hd
      by_cases hsame : entry.1 = n
      · -- the entry is replaced; what it covers is the path itself
        refine ⟨(n, c), mem_setEntry.mpr (.inl rfl), .inl ?_⟩
        rcases hcover with heq | ⟨hbelow, -⟩
        · exact hsame.symm.trans heq
        · by_contra hne
          exact hnotBelow (q, d) hq (fun heq => hne heq.symm) (hsame ▸ hbelow)
      · exact ⟨entry, mem_setEntry.mpr (.inr ⟨hentry, hsame⟩), hcover⟩
    · cases mem_singleton.mp hq
      exact ⟨(n, c), mem_setEntry.mpr (.inl rfl), .inl rfl⟩
  · intro entry hentry
    exact ⟨mem_append_left _ (h.excluded entry hentry).1, (h.excluded entry hentry).2⟩
  · intro q d hq hd
    rcases mem_append.mp hq with hq | hq
    · exact h.excludedCovered q d hq hd
    · cases mem_singleton.mp hq
      rw [hc] at hd
      cases hd

/-- A path under a path of its own command. -/
theorem Recorded.skip (hc : objects.participates c = true)
    (hown : includedOwnerOf owners n = some c) : Recorded objects (done ++ [(n, c)]) owners := by
  refine ⟨h.names, ?_, h.separate, ?_, ?_, ?_⟩
  · intro entry hentry
    exact ⟨mem_append_left _ (h.included entry hentry).1, (h.included entry hentry).2⟩
  · intro q d hq hd
    rcases mem_append.mp hq with hq | hq
    · exact h.covered q d hq hd
    · cases mem_singleton.mp hq
      obtain ⟨m, hm, hbelow⟩ := includedOwnerOf_some hown
      exact ⟨(m, c), hm, .inr ⟨hbelow, rfl⟩⟩
  · intro entry hentry
    exact ⟨mem_append_left _ (h.excluded entry hentry).1, (h.excluded entry hentry).2⟩
  · intro q d hq hd
    rcases mem_append.mp hq with hq | hq
    · exact h.excludedCovered q d hq hd
    · cases mem_singleton.mp hq
      rw [hc] at hd
      cases hd

/-- An output of a command that does not participate. -/
theorem Recorded.setExcludedOwner (hc : objects.participates c = false) :
    Recorded objects (done ++ [(n, c)])
      { owners with excludedPaths := setEntry address owners.excludedPaths n c } := by
  refine ⟨h.names, ?_, h.separate, ?_, ?_, ?_⟩
  · intro entry hentry
    exact ⟨mem_append_left _ (h.included entry hentry).1, (h.included entry hentry).2⟩
  · intro q d hq hd
    rcases mem_append.mp hq with hq | hq
    · exact h.covered q d hq hd
    · cases mem_singleton.mp hq
      rw [hc] at hd
      cases hd
  · intro entry hentry
    rcases mem_setEntry.mp hentry with rfl | ⟨hold, -⟩
    · exact ⟨by simp, hc⟩
    · exact ⟨mem_append_left _ (h.excluded entry hold).1, (h.excluded entry hold).2⟩
  · intro q d hq hd
    rcases mem_append.mp hq with hq | hq
    · obtain ⟨entry, hentry, heq⟩ := h.excludedCovered q d hq hd
      by_cases hsame : entry.1 = n
      · exact ⟨(n, c), mem_setEntry.mpr (.inl rfl), hsame.symm.trans heq⟩
      · exact ⟨entry, mem_setEntry.mpr (.inr ⟨hentry, hsame⟩), heq⟩
    · cases mem_singleton.mp hq
      exact ⟨(n, c), mem_setEntry.mpr (.inl rfl), rfl⟩

end

end Step

/-- Two participating commands whose outputs lie one under the other. -/
def Collides (objects : Objects) (outputs : List (Name × Name)) : Prop :=
  ∃ p c q d, (p, c) ∈ outputs ∧ (q, d) ∈ outputs ∧ objects.participates c = true ∧ objects.participates d = true
    ∧ c ≠ d ∧ Below slash p q

/-- A pass over sorted outputs records them, or finds a collision. -/
theorem establish_cases {objects : Objects} {done todo : List (Name × Name)}
    (hsorted : (done ++ todo).Pairwise fun a b => a.1.length ≤ b.1.length) (h : Recorded objects done owners) :
    (∃ owners', establish objects address todo owners = .ok owners' ∧ Recorded objects (done ++ todo) owners')
      ∨ (∃ conflict, establish objects address todo owners = .error conflict)
        ∧ Collides objects (done ++ todo) := by
  induction todo generalizing done owners with
  | nil => exact .inl ⟨owners, rfl, by simpa using h⟩
  | cons output todo ih =>
    obtain ⟨n, c⟩ := output
    have hle : ∀ entry ∈ done, entry.1.length ≤ n.length := fun entry hentry =>
      (pairwise_append.mp hsorted).2.2 entry hentry (n, c) (by simp)
    have hassoc : done ++ (n, c) :: todo = done ++ [(n, c)] ++ todo := by simp
    rw [hassoc] at hsorted ⊢
    cases hc : objects.participates c with
    | false =>
      simp only [establish, hc, Bool.false_eq_true, if_false]
      exact ih hsorted (h.setExcludedOwner hc)
    | true =>
      cases hown : includedOwnerOf owners n with
      | none =>
        simp only [establish, hc, if_true, hown]
        exact ih hsorted (h.setOwner hle hc hown)
      | some owner =>
        by_cases hsame : owner = c
        · subst hsame
          simp only [establish, hc, if_true, hown]
          exact ih hsorted (h.skip hc hown)
        · simp only [establish, hc, if_true, hown, hsame, if_false]
          obtain ⟨m, hm, hbelow⟩ := includedOwnerOf_some hown
          obtain ⟨hdone, howner⟩ := h.included _ hm
          exact .inr ⟨⟨_, rfl⟩, m, owner, n, c, by simp [hdone], by simp, howner, hc, hsame, hbelow⟩

/-! ## The outcome -/

section Outcome

variable {objects : Objects} {outputs : List (Name × Name)} {owners : Owners}

theorem Recorded.eq_of_name (h : Recorded objects outputs owners) {a b : Name × Name} (ha : a ∈ owners.includedPaths)
    (hb : b ∈ owners.includedPaths) (hname : a.1 = b.1) : a = b := by
  by_contra hne
  have hsymm : Std.Symm fun a b : Name × Name => a.1 ≠ b.1 := ⟨fun a b hab => hab.symm⟩
  exact h.names.forall ha hb hne hname

variable {x : Name}

/-- At most one entry owns a path. -/
theorem Recorded.unique_match (h : Recorded objects outputs owners) {a b : Name × Name}
    (ha : a ∈ owners.includedPaths) (hb : b ∈ owners.includedPaths) (hax : Below slash a.1 x)
    (hbx : Below slash b.1 x) : a = b := by
  by_contra hne
  have hname : a.1 ≠ b.1 := fun heq => hne (h.eq_of_name ha hb heq)
  rcases below_comparable hax hbx with heq | hbelow | hbelow
  · exact hname heq
  · exact h.separate a ha b hb hname hbelow
  · exact h.separate b hb a ha hname.symm hbelow

theorem Recorded.matches_le_one (h : Recorded objects outputs owners) (x : Name) :
    (owners.includedPaths.filter fun entry => ownsPath entry.1 x).length ≤ 1 := by
  have hnames := h.names.filter fun entry => ownsPath entry.1 x
  generalize hmatches : owners.includedPaths.filter (fun entry => ownsPath entry.1 x) = matching at hnames ⊢
  have hmem : ∀ entry ∈ matching, entry ∈ owners.includedPaths ∧ Below slash entry.1 x := by
    intro entry hentry
    rw [← hmatches, mem_filter, ownsPath_iff] at hentry
    exact hentry
  match matching, hnames with
  | [], _ => simp
  | [_], _ => simp
  | a :: b :: rest, hnames =>
    obtain ⟨ha, hax⟩ := hmem a (by simp)
    obtain ⟨hb, hbx⟩ := hmem b (by simp)
    have hne : a.1 ≠ b.1 := (pairwise_cons.mp hnames).1 b (by simp)
    exact absurd (congrArg Prod.fst (h.unique_match ha hb hax hbx)) hne

/-- Every output node has one producer. -/
def OneProducer (outputs : List (Name × Name)) : Prop :=
  ∀ n c d, (n, c) ∈ outputs → (n, d) ∈ outputs → c = d

/-- With one producer each, an output is covered by a path of its own command. -/
theorem Recorded.covered_by_command (h : Recorded objects outputs owners) (hone : OneProducer outputs) {q c : Name}
    (hq : (q, c) ∈ outputs) (hc : objects.participates c = true) :
    ∃ n, (n, c) ∈ owners.includedPaths ∧ (n = q ∨ Below slash n q) := by
  obtain ⟨⟨n, d⟩, hentry, heq | ⟨hbelow, rfl⟩⟩ := h.covered q c hq hc
  · obtain rfl : n = q := heq
    obtain rfl : d = c := hone n d c (h.included _ hentry).1 hq
    exact ⟨n, hentry, .inl rfl⟩
  · exact ⟨n, hentry, .inr hbelow⟩

theorem Recorded.below_of_covered {n q : Name} (h : n = q ∨ Below slash n q) (hx : Below slash q x) :
    Below slash n x := by
  rcases h with rfl | h
  · exact hx
  · exact h.trans hx

section

variable (h : Recorded objects outputs owners)
include h

section

variable (hone : OneProducer outputs)
include hone

/-- The owner of a path is the command with an output above it. -/
theorem Recorded.includedOwnerOf_iff {c : Name} :
    includedOwnerOf owners x = some c
      ↔ ∃ p, (p, c) ∈ outputs ∧ objects.participates c = true ∧ Below slash p x := by
  constructor
  · intro hown
    obtain ⟨p, hp, hbelow⟩ := includedOwnerOf_some hown
    exact ⟨p, (h.included _ hp).1, (h.included _ hp).2, hbelow⟩
  · rintro ⟨p, hp, hc, hbelow⟩
    obtain ⟨n, hn, hcovered⟩ := h.covered_by_command hone hp hc
    have hnx := below_of_covered hcovered hbelow
    cases hown : includedOwnerOf owners x with
    | none => exact absurd hnx (includedOwnerOf_none.mp hown _ hn)
    | some d =>
      obtain ⟨m, hm, hmx⟩ := includedOwnerOf_some hown
      cases h.unique_match hn hm hnx hmx
      rfl

theorem Recorded.excludedOwnerOf_iff {c : Name} :
    excludedOwnerOf owners x = some c ↔ (x, c) ∈ outputs ∧ objects.participates c = false := by
  have hsome : ∀ d, excludedOwnerOf owners x = some d → (x, d) ∈ outputs ∧ objects.participates d = false := by
    intro d hd
    obtain ⟨⟨n, d'⟩, hfind, rfl⟩ := Option.map_eq_some_iff.mp hd
    obtain rfl : x = n := by simpa using find?_some hfind
    exact h.excluded _ (mem_of_find?_eq_some hfind)
  constructor
  · exact hsome c
  · rintro ⟨hx, hc⟩
    obtain ⟨entry, hentry, hname⟩ := h.excludedCovered x c hx hc
    cases hown : excludedOwnerOf owners x with
    | none =>
      rw [excludedOwnerOf, Option.map_eq_none_iff, find?_eq_none] at hown
      exact absurd hname.symm (by simpa using hown entry hentry)
    | some d => rw [hone x d c (hsome d hown).1 hx]

/-- No collision can be left when every output is recorded. -/
theorem Recorded.not_collides :
    ¬Collides objects outputs := by
  rintro ⟨p, c, q, d, hp, hq, hc, hd, hne, hbelow⟩
  obtain ⟨n, hn, hnp⟩ := h.covered_by_command hone hp hc
  obtain ⟨m, hm, hmq⟩ := h.covered_by_command hone hq hd
  have hnq : Below slash n q := below_of_covered hnp hbelow
  have hsame : (n, c) = (m, d) := by
    rcases hmq with rfl | hmq
    · by_contra hdiff
      exact h.separate _ hn _ hm (fun heq => hdiff (h.eq_of_name hn hm heq)) hnq
    · exact h.unique_match hn hm hnq hmq
  exact hne (congrArg Prod.snd hsame)

end

end

end Outcome

/-! ## Conflicts between commands -/

/-- The outputs of two different participating commands are the same up to a trailing slash or lie one under the
other; only the nodes with `counts` are considered. -/
def Conflicting (objects : Objects) (commands : List Name) (counts : BuildNode → Bool) : Prop :=
  ∃ c ∈ commands, ∃ d ∈ commands, objects.participates c = true ∧ objects.participates d = true ∧ c ≠ d
    ∧ ∃ p ∈ (objects.command c).outputs, ∃ q ∈ (objects.command d).outputs,
      counts (objects.node p) = true ∧ counts (objects.node q) = true
      ∧ (trimmed slash p = trimmed slash q ∨ Below slash p q)

/-- Every output node of the commands has one producer. -/
def SingleProducers (objects : Objects) (commands : List Name) : Prop :=
  ∀ c ∈ commands, ∀ d ∈ commands, ∀ n ∈ (objects.command c).outputs, n ∈ (objects.command d).outputs → c = d

section Conflicts

variable {objects : Objects} {commands : List Name}

theorem SingleProducers.sorted (h : SingleProducers objects commands) (sorted : SortedOutputs objects commands) :
    OneProducer sorted.outputNodesAndCommands := by
  intro n c d hc hd
  obtain ⟨hc, hnc, -⟩ := mem_outputsOf.mp (sorted.perm.mem_iff.mp hc)
  obtain ⟨hd, hnd, -⟩ := mem_outputsOf.mp (sorted.perm.mem_iff.mp hd)
  exact h c hc d hd n hnc hnd

theorem collides_iff (h : SingleProducers objects commands) (sorted : SortedOutputs objects commands) :
    Collides objects sorted.outputNodesAndCommands
      ↔ Conflicting objects commands fun node => !node.isVirtual := by
  have hmem : ∀ n c, (n, c) ∈ sorted.outputNodesAndCommands
      ↔ c ∈ commands ∧ n ∈ (objects.command c).outputs ∧ (objects.node n).isVirtual = false :=
    fun n c => (sorted.perm.mem_iff).trans mem_outputsOf
  constructor
  · rintro ⟨p, c, q, d, hp, hq, hc, hd, hne, hbelow⟩
    obtain ⟨hcmem, hpout, hpreal⟩ := (hmem p c).mp hp
    obtain ⟨hdmem, hqout, hqreal⟩ := (hmem q d).mp hq
    exact ⟨c, hcmem, d, hdmem, hc, hd, hne, p, hpout, q, hqout, by simp [hpreal], by simp [hqreal], .inr hbelow⟩
  · rintro ⟨c, hcmem, d, hdmem, hc, hd, hne, p, hpout, q, hqout, hpreal, hqreal, hpq⟩
    have hp := (hmem p c).mpr ⟨hcmem, hpout, by simpa using hpreal⟩
    have hq := (hmem q d).mpr ⟨hdmem, hqout, by simpa using hqreal⟩
    have hnames : p ≠ q := by
      rintro rfl
      exact hne (h c hcmem d hdmem p hpout hqout)
    have hbelow : Below slash p q ∨ Below slash q p := by
      rcases hpq with heq | hbelow
      · exact below_of_trimmed_eq heq hnames
      · exact .inl hbelow
    rcases hbelow with hbelow | hbelow
    · exact ⟨p, c, q, d, hp, hq, hc, hd, hne, hbelow⟩
    · exact ⟨q, d, p, c, hq, hp, hd, hc, hne.symm, hbelow⟩

theorem establishOwnerships_cases (sorted : SortedOutputs objects commands) (address : Name ↪ Nat) :
    (∃ owners, establishOwnerships objects address sorted.outputNodesAndCommands = .ok owners
      ∧ Recorded objects sorted.outputNodesAndCommands owners)
    ∨ (∃ conflict, establishOwnerships objects address sorted.outputNodesAndCommands = .error conflict)
      ∧ Collides objects sorted.outputNodesAndCommands := by
  have hsorted := sorted.sorted
  rw [← nil_append sorted.outputNodesAndCommands] at hsorted
  exact establish_cases hsorted (recorded_nil objects)

theorem recorded_of_ok {sorted : SortedOutputs objects commands} {address : Name ↪ Nat} {owners : Owners}
    (hok : establishOwnerships objects address sorted.outputNodesAndCommands = .ok owners) :
    Recorded objects sorted.outputNodesAndCommands owners := by
  rcases establishOwnerships_cases sorted address with ⟨owners', hok', hrec⟩ | ⟨⟨conflict, herror⟩, -⟩
  · rw [hok] at hok'
    cases hok'
    exact hrec
  · rw [hok] at herror
    cases herror

theorem establishOwnerships_ok_iff (hone : SingleProducers objects commands)
    (sorted : SortedOutputs objects commands) (address : Name ↪ Nat) :
    (∃ owners, establishOwnerships objects address sorted.outputNodesAndCommands = .ok owners)
      ↔ ¬Conflicting objects commands fun node => !node.isVirtual := by
  rw [← collides_iff hone sorted]
  rcases establishOwnerships_cases sorted address with ⟨owners, hok, hrec⟩ | ⟨⟨conflict, herror⟩, hcollides⟩
  · exact ⟨fun _ => hrec.not_collides (hone.sorted sorted), fun _ => ⟨owners, hok⟩⟩
  · refine ⟨?_, fun hnot => absurd hcollides hnot⟩
    rintro ⟨owners, hok⟩
    rw [hok] at herror
    cases herror

variable {commands' : List Name}

theorem conflicting_perm {counts : BuildNode → Bool} (hperm : commands'.Perm commands)
    (h : Conflicting objects commands' counts) : Conflicting objects commands counts := by
  obtain ⟨c, hc, d, hd, hrest⟩ := h
  exact ⟨c, hperm.mem_iff.mp hc, d, hperm.mem_iff.mp hd, hrest⟩

theorem SingleProducers.perm (h : SingleProducers objects commands) (hperm : commands'.Perm commands) :
    SingleProducers objects commands' :=
  fun c hc d hd => h c (hperm.mem_iff.mp hc) d (hperm.mem_iff.mp hd)

theorem outputs_perm (hperm : commands'.Perm commands) (sorted : SortedOutputs objects commands)
    (sorted' : SortedOutputs objects commands') (output : Name × Name) :
    output ∈ sorted'.outputNodesAndCommands ↔ output ∈ sorted.outputNodesAndCommands := by
  rw [sorted'.perm.mem_iff, sorted.perm.mem_iff, mem_outputsOf, mem_outputsOf, hperm.mem_iff]

end Conflicts

/-- What a successful analysis says about every path. -/
structure WellOwned (owners : Owners) : Prop where
  separate : ∀ a ∈ owners.includedPaths, ∀ b ∈ owners.includedPaths, a.1 ≠ b.1 → ¬Below slash a.1 b.1
  unique : ∀ x, (owners.includedPaths.filter fun entry => ownsPath entry.1 x).length ≤ 1

/-- The outcome of an analysis, with the nodes that `counts` says to matter for conflicts. -/
structure OwnershipDefined (objects : Objects) (commands : List Name) (counts : BuildNode → Bool)
    (sorted : SortedOutputs objects commands) (address : Name ↪ Nat) : Prop where
  succeeds_iff : (∃ owners, establishOwnerships objects address sorted.outputNodesAndCommands = .ok owners)
    ↔ ¬Conflicting objects commands counts
  wellOwned : ∀ owners, establishOwnerships objects address sorted.outputNodesAndCommands = .ok owners →
    WellOwned owners
  /-- Another order of the commands, another result of the sort and other addresses make no difference. -/
  order : ∀ owners, establishOwnerships objects address sorted.outputNodesAndCommands = .ok owners →
    ∀ (commands' : List Name) (sorted' : SortedOutputs objects commands') (address' : Name ↪ Nat),
      commands'.Perm commands →
      ∃ owners', establishOwnerships objects address' sorted'.outputNodesAndCommands = .ok owners'
        ∧ ∀ x, includedOwnerOf owners' x = includedOwnerOf owners x
          ∧ excludedOwnerOf owners' x = excludedOwnerOf owners x

/-- **Ownership is well defined**, where only outputs that are not virtual can conflict. -/
theorem establishOwnerships_defined {objects : Objects} {commands : List Name}
    (hone : SingleProducers objects commands) (sorted : SortedOutputs objects commands) (address : Name ↪ Nat) :
    OwnershipDefined objects commands (fun node => !node.isVirtual) sorted address where
  succeeds_iff := establishOwnerships_ok_iff hone sorted address
  wellOwned owners hok := ⟨(recorded_of_ok hok).separate, (recorded_of_ok hok).matches_le_one⟩
  order := by
    intro owners hok commands' sorted' address' hperm
    have hfree := (establishOwnerships_ok_iff hone sorted address).mp ⟨owners, hok⟩
    have hone' := hone.perm hperm
    obtain ⟨owners', hok'⟩ := (establishOwnerships_ok_iff hone' sorted' address').mpr fun hconflict =>
      hfree (conflicting_perm hperm hconflict)
    refine ⟨owners', hok', fun x => ⟨?_, ?_⟩⟩
    · apply Option.ext
      intro c
      rw [(recorded_of_ok hok').includedOwnerOf_iff (hone'.sorted sorted'),
        (recorded_of_ok hok).includedOwnerOf_iff (hone.sorted sorted)]
      simp only [outputs_perm hperm sorted sorted']
    · apply Option.ext
      intro c
      rw [(recorded_of_ok hok').excludedOwnerOf_iff (hone'.sorted sorted'),
        (recorded_of_ok hok).excludedOwnerOf_iff (hone.sorted sorted)]
      simp only [outputs_perm hperm sorted sorted']

/-! ## Examples of build files -/

/-- The bytes of an ASCII name. -/
def name (s : String) : Name := s.toList.map Char.toUInt8

/-- Some placement of the nodes. -/
def someAddress : Name ↪ Nat where
  toFun n := Encodable.encode (n.map UInt8.toNat)
  inj' := Encodable.encode_injective.comp (map_injective_iff.mpr fun _ _ => UInt8.toNat_inj.mp)

/-- The command `a` writes `out/` and the command `b` writes another node, all of one type. -/
def twoWriters (output : Name) (type : NodeType) : Objects where
  node _ := { type }
  command c := { outputs := if c = name "a" then [name "out/"] else if c = name "b" then [output] else [] }

theorem twoWriters_single {output : Name} (type : NodeType) (h : output ≠ name "out/") :
    SingleProducers (twoWriters output type) [name "a", name "b"] := by
  have hne : name "a" ≠ name "b" := by decide
  have hne' : name "b" ≠ name "a" := by decide
  simp [SingleProducers, twoWriters, hne', h, Ne.symm h]

/-- `outer` starts with the letters of `out/` but does not lie under it. -/
theorem establishOwnerships_defined_outer :
    SingleProducers (twoWriters (name "outer") .plain) [name "a", name "b"]
      ∧ OwnershipDefined (twoWriters (name "outer") .plain) [name "a", name "b"] (fun node => !node.isVirtual)
          ⟨[(name "out/", name "a"), (name "outer", name "b")], by decide, by decide⟩ someAddress :=
  ⟨twoWriters_single .plain (by decide),
    establishOwnerships_defined (twoWriters_single .plain (by decide)) _ someAddress⟩

/-- Virtual nodes are no paths: `out/` and `out/x` do not conflict if they are virtual. -/
theorem establishOwnerships_ignores_virtual :
    ¬∀ (objects : Objects) (commands : List Name), SingleProducers objects commands →
      ∀ (sorted : SortedOutputs objects commands) (address : Name ↪ Nat),
        OwnershipDefined objects commands (fun _ => true) sorted address := by
  intro h
  have hdefined := h (twoWriters (name "out/x") .virtual) [name "a", name "b"]
    (twoWriters_single .virtual (by decide)) ⟨[], by decide, List.Pairwise.nil⟩ someAddress
  apply hdefined.succeeds_iff.mp ⟨{}, rfl⟩
  exact ⟨name "a", by simp, name "b", by simp, rfl, rfl, by decide, name "out/", by decide, name "out/x", by decide, rfl,
    rfl, .inr (by decide)⟩

end Ownership

end Builra
