import Builra.Macro.ConfigFileInclusion

namespace Builra.Macro.ConfigFile

open List

/-!
# `Macro.ConfigFileIncludeTree` — a load follows the include tree of its start file

The include tree is what the files say: an inclusion is skipped as cyclic if its file is on the chain from the
start file, and opened if it exists, can be read and is not. A load follows it exactly if no inclusion in it
comes to a file that exists and cannot be read, and no assignment in it has an empty name.
-/

/-- What the files of a load say, in textual order. -/
inductive TreeEvent where
  | assignment (assignment : Assignment)
  | inclusion (chain : List Text) (fileName : Text) (optional : Bool) (outcome : Outcome)

/-- The inclusion of a file that exists and cannot be read. -/
def TreeEvent.Unreadable (event : TreeEvent) : Prop :=
  ∃ chain fileName optional path, event = .inclusion chain fileName optional (.unreadable path)

/-- An assignment with a name that cannot be declared. -/
def TreeEvent.Undeclarable (event : TreeEvent) : Prop :=
  ∃ assignment, event = .assignment assignment ∧ assignment.isDeclarable = false

def TreeEvent.assignment? : TreeEvent → Option Assignment
  | .assignment a => some a
  | .inclusion _ _ _ _ => none

def Callback.event? (callback : Callback) : Option TreeEvent :=
  match callback.called with
  | .foundMacroValueAssignment a => some (.assignment a)
  | .foundPreprocessorInclusion fileName optional outcome =>
    some (.inclusion callback.chain fileName optional outcome)
  | _ => none

/-- The path an inclusion resolves to. -/
def Outcome.path? : Outcome → Option Text
  | .notFound => none
  | .cyclic path => some path
  | .nonexistent path => some path
  | .unreadable path => some path
  | .found path _ => some path

/-- The assignment of a line. -/
def assignmentsOf : DelegateCall → List TreeEvent
  | .foundMacroValueAssignment macroName conditions value path startLine endLine startColumn endColumn =>
    [.assignment ⟨macroName, conditions, value, path, startLine, endLine, startColumn, endColumn⟩]
  | _ => []

attribute [local instance] instLawfulBEqText

/-- A file with this resolved path is on the chain. -/
def isOnChain (fs : FSProxy) (chain : List Text) (file : AncestorInclude) : Bool :=
  file.resolvedPath ∈ chain.map fs.resolvedPath

section Tree

variable (fs : FSProxy) (developerPath : Text) (endsInBackslash : Text → Bool) (trimmed : Text → Text)

/-- The include tree below the lines of the last file of a chain, and what it says in textual order. -/
inductive IncludeTree : List Text → Delegate → List (Nat × DelegateCall) → List TreeEvent → Prop where
  | nil {chain delegate} : IncludeTree chain delegate [] []
  | line {chain delegate lineNumber call rest events}
      (hcall : ∀ fileName optional, call ≠ .foundPreprocessorInclusion fileName optional)
      (hrest : IncludeTree chain delegate rest events) :
      IncludeTree chain delegate ((lineNumber, call) :: rest) (assignmentsOf call ++ events)
  | skipped {chain delegate lineNumber fileName optional outcome rest events}
      (houtcome : outcomeWith fs developerPath (isOnChain fs chain) delegate fileName = outcome)
      (hskipped : ∀ path data, outcome ≠ .found path data) (hrest : IncludeTree chain delegate rest events) :
      IncludeTree chain delegate ((lineNumber, .foundPreprocessorInclusion fileName optional) :: rest)
        (.inclusion chain fileName optional outcome :: events)
  | included {chain delegate lineNumber fileName optional path data rest inner events}
      (houtcome : outcomeWith fs developerPath (isOnChain fs chain) delegate fileName = .found path data)
      (hinner : IncludeTree (chain ++ [path]) (delegate.nested path) (items endsInBackslash trimmed path data) inner)
      (hrest : IncludeTree chain delegate rest events) :
      IncludeTree chain delegate ((lineNumber, .foundPreprocessorInclusion fileName optional) :: rest)
        (.inclusion chain fileName optional (.found path data) :: (inner ++ events))

/-- The include tree of a start file; a file that cannot be read says nothing. -/
def StartTree (path : Text) (searchPaths : List Text) (events : List TreeEvent) : Prop :=
  match fs.read path with
  | none => events = []
  | some data =>
    IncludeTree fs developerPath endsInBackslash trimmed [path] ⟨some (Path.dirname path), searchPaths⟩
      (items endsInBackslash trimmed path data) events

end Tree

/-- The delegate takes exactly the chain for being parsed, and it skips an inclusion of an existing file as cyclic
    exactly if that file is on the chain. -/
structure Callback.Faithful (fs : FSProxy) (callback : Callback) : Prop where
  ancestors : callback.ancestorIncludes = callback.chain
  cyclic : ∀ fileName optional outcome path, callback.called = .foundPreprocessorInclusion fileName optional outcome →
    outcome.path? = some path → fs.fileExists path = true →
      (outcome = .cyclic path ↔ fs.resolvedPath path ∈ callback.chain.map fs.resolvedPath)

/-- **A load follows the include tree**: all calls of the delegates are faithful, they are those of the tree in
    textual order, and so are the assignments of the table. -/
structure Follows (fs : FSProxy) (info : MacroConfigInfo) (events : List TreeEvent) : Prop where
  callbacks : ∀ callback ∈ info.callbacks, callback.Faithful fs
  inOrder : info.callbacks.filterMap Callback.event? = events
  table : info.table = events.filterMap TreeEvent.assignment?

section Load

variable {fs : FSProxy} {developerPath : Text} {endsInBackslash : Text → Bool} {trimmed : Text → Text}
  {delegate : Delegate} {chain : List Text} {path fileName : Text} {lineNumber fuel : Nat} {optional : Bool}
  {shared shared' : Shared} {outcome : Outcome} {calls : List (Nat × DelegateCall)} {events : List TreeEvent}

/-- **Every start file has an include tree**: no file is included inside itself. -/
theorem exists_includeTree (developerPath : Text) (endsInBackslash : Text → Bool) (trimmed : Text → Text)
    {files : List Text} (hfin : ∀ path, fs.fileExists path = true → fs.resolvedPath path ∈ files) (n : Nat) : ∀ (chain : List Text) (delegate : Delegate) (calls : List (Nat × DelegateCall)),
      (files.filter (fun file => file ∉ chain.map fs.resolvedPath)).length < n →
        ∃ events, IncludeTree fs developerPath endsInBackslash trimmed chain delegate calls events := by
  induction n with
  | zero => exact fun _ _ _ hlt => absurd hlt (Nat.not_lt_zero _)
  | succ n ih =>
    intro chain delegate calls hlt
    induction calls with
    | nil => exact ⟨[], .nil⟩
    | cons item rest ihrest =>
      obtain ⟨events, hrest⟩ := ihrest
      obtain ⟨lineNumber, call⟩ := item
      by_cases hcall : ∃ fileName optional, call = .foundPreprocessorInclusion fileName optional
      · obtain ⟨fileName, optional, rfl⟩ := hcall
        by_cases hfound : ∃ path data,
            outcomeWith fs developerPath (isOnChain fs chain) delegate fileName = .found path data
        · obtain ⟨path, data, hfound⟩ := hfound
          obtain ⟨hexists, -, hnew⟩ := outcomeWith_found hfound
          have hnew' : fs.resolvedPath path ∉ chain.map fs.resolvedPath := by
            simpa [isOnChain, FSProxy.ancestorInclude] using hnew
          have hfewer := length_filter_notMem_lt (hfin path hexists) hnew'
          rw [← map_singleton, ← map_append] at hfewer
          obtain ⟨inner, hinner⟩ := ih (chain ++ [path]) (delegate.nested path)
            (items endsInBackslash trimmed path data) (Nat.lt_of_lt_of_le hfewer (Nat.le_of_lt_succ hlt))
          exact ⟨_, .included hfound hinner hrest⟩
        · exact ⟨_, .skipped rfl (fun path data h => hfound ⟨path, data, h⟩) hrest⟩
      · exact ⟨_, .line (fun fileName optional h => hcall ⟨fileName, optional, h⟩) hrest⟩

/-! ## Following the tree -/

/-- The files taken for being parsed are those of the chain. -/
def Tracks (fs : FSProxy) (chain : List Text) (shared : Shared) : Prop :=
  shared.ancestorIncludes.elements = chain.map fs.ancestorInclude

theorem Tracks.paths (h : Tracks fs chain shared) : shared.paths = chain := by
  rw [Shared.paths, show shared.ancestorIncludes.elements = _ from h, map_map]
  exact map_id chain

theorem Tracks.contains (h : Tracks fs chain shared) :
    (fun a => shared.ancestorIncludes.contains a) = isOnChain fs chain := by
  funext a
  rw [Bool.eq_iff_iff, contains_iff, show shared.ancestorIncludes.elements = _ from h, map_map, isOnChain,
    decide_eq_true_iff]
  rfl

/-- What a part of a load adds when it follows a part of the tree. -/
structure Followed (fs : FSProxy) (chain : List Text) (events : List TreeEvent) (shared shared' : Shared) : Prop where
  tracks : Tracks fs chain shared'
  table : shared'.table = shared.table ++ events.filterMap TreeEvent.assignment?
  callbacks : ∃ added, shared'.callbacks = shared.callbacks ++ added ∧
    added.filterMap Callback.event? = events ∧ ∀ callback ∈ added, callback.Faithful fs

theorem Followed.refl (h : Tracks fs chain shared) : Followed fs chain [] shared shared :=
  ⟨h, by simp, [], by simp, rfl, by simp⟩

theorem Followed.trans {chain' : List Text} {more : List TreeEvent} {shared₁ : Shared}
    (h : Followed fs chain' events shared shared₁) (h' : Followed fs chain more shared₁ shared') :
    Followed fs chain (events ++ more) shared shared' := by
  obtain ⟨added, hadded, hevents, hfaithful⟩ := h.callbacks
  obtain ⟨added', hadded', hevents', hfaithful'⟩ := h'.callbacks
  refine ⟨h'.tracks, ?_, added ++ added', ?_, ?_, ?_⟩
  · rw [h'.table, h.table, filterMap_append, append_assoc]
  · rw [hadded', hadded, append_assoc]
  · rw [filterMap_append, hevents, hevents']
  · intro callback hcallback
    rcases mem_append.mp hcallback with hold | hnew
    · exact hfaithful callback hold
    · exact hfaithful' callback hnew

/-- A call that is not an inclusion. -/
theorem faithful_of_tracks {called : Called} (h : Tracks fs chain shared)
    (hcalled : ∀ fileName optional outcome, called ≠ .foundPreprocessorInclusion fileName optional outcome) :
    Callback.Faithful fs ⟨called, chain, shared.paths⟩ :=
  ⟨h.paths, fun fileName optional outcome _ heq => absurd heq (hcalled fileName optional outcome)⟩

theorem outcomeWith_cyclic_iff {file : Text} (hout : outcomeWith fs developerPath (isOnChain fs chain) delegate fileName = outcome)
    (hpath : outcome.path? = some file) : outcome = .cyclic file ↔ fs.resolvedPath file ∈ chain.map fs.resolvedPath := by
  subst hout
  unfold outcomeWith at *
  cases hlocate : locate fs developerPath delegate fileName with
  | error message =>
    rw [hlocate] at hpath
    exact absurd hpath (by simp [Outcome.path?])
  | ok p =>
    rw [hlocate] at hpath
    dsimp only at hpath ⊢
    split_ifs at hpath ⊢ with hparsed hexists
    · cases hpath
      exact iff_of_true rfl (by simpa [isOnChain, FSProxy.ancestorInclude] using hparsed)
    · cases hpath
      exact iff_of_false (by simp) (by simpa [isOnChain, FSProxy.ancestorInclude] using hparsed)
    · have hnot : fs.resolvedPath p ∉ chain.map fs.resolvedPath := by
        simpa [isOnChain, FSProxy.ancestorInclude] using hparsed
      cases hread : fs.read p with
      | none | some data =>
        rw [hread] at hpath
        cases hpath
        exact iff_of_false (by simp) hnot

variable {parseSubparser : List Text → Delegate → Text → Text → Shared → Except Violation Shared}

theorem handleCall_line
    {call : DelegateCall} (hcall : ∀ fileName optional, call ≠ .foundPreprocessorInclusion fileName optional)
    (h : Tracks fs chain shared)
    (hrun : handleCall fs developerPath parseSubparser delegate chain path lineNumber call shared = .ok shared') :
    Followed fs chain (assignmentsOf call) shared shared' := by
  cases call with
  | handleDiagnostic diagnostic =>
    cases hrun
    refine ⟨h, by simp [assignmentsOf, handleDiagnostic, Shared.record], _, rfl, rfl, fun callback hmem => ?_⟩
    obtain rfl := mem_singleton.mp hmem
    exact faithful_of_tracks h (by simp)
  | foundMacroValueAssignment macroName conditions value path startLine endLine startColumn endColumn =>
    obtain ⟨-, rfl⟩ := foundMacroValueAssignment_eq_ok hrun
    refine ⟨h, rfl, _, rfl, rfl, fun callback hmem => ?_⟩
    obtain rfl := mem_singleton.mp hmem
    exact faithful_of_tracks h (by simp)
  | parseSubparser | endPreprocessorInclusion =>
    cases hrun
    exact .refl h
  | foundPreprocessorInclusion fileName optional => exact absurd rfl (hcall fileName optional)

/-- The record of an inclusion whose outcome is that of the tree. -/
theorem faithful_inclusion (h : Tracks fs chain shared)
    (hout : outcomeWith fs developerPath (isOnChain fs chain) delegate fileName = outcome) :
    Callback.Faithful fs ⟨.foundPreprocessorInclusion fileName optional outcome, chain, shared.paths⟩ := by
  refine ⟨h.paths, fun fileName' optional' outcome' file heq hpath _ => ?_⟩
  obtain ⟨rfl, rfl, rfl⟩ := Called.foundPreprocessorInclusion.inj heq
  exact outcomeWith_cyclic_iff hout hpath

/-- An inclusion that opens no file. -/
theorem Included.followed (h : Included fs chain fileName optional shared outcome shared')
    (ht : Tracks fs chain shared) (hpushed : outcome.pushed = none)
    (hout : outcomeWith fs developerPath (isOnChain fs chain) delegate fileName = outcome) :
    Followed fs chain [.inclusion chain fileName optional outcome] shared shared' := by
  have hancestors := h.elements
  rw [hpushed, Option.map_none, Option.toList_none, append_nil] at hancestors
  have ht' : Tracks fs chain shared' := hancestors.trans ht
  obtain ⟨diagnostics, hcallbacks, -⟩ := h.callbacks
  refine ⟨ht', by rw [h.table]; simp [TreeEvent.assignment?], _, hcallbacks, ?_, fun callback hmem => ?_⟩
  · rw [filterMap_append, filterMap_map]
    have hnone : diagnostics.filterMap (Callback.event? ∘ fun d => ⟨.handleDiagnostic d, chain, shared'.paths⟩) = [] := by
      simp [Function.comp_def, Callback.event?]
    rw [hnone]
    rfl
  · rcases mem_append.mp hmem with hmem | hmem
    · obtain ⟨d, -, rfl⟩ := mem_map.mp hmem
      exact faithful_of_tracks ht' (by simp)
    · obtain rfl := mem_singleton.mp hmem
      exact faithful_inclusion ht hout

/-- An inclusion that opens a file puts it on the chain. -/
theorem Included.followed_found {file data : Text} (h : Included fs chain fileName optional shared (.found file data) shared')
    (ht : Tracks fs chain shared)
    (hout : outcomeWith fs developerPath (isOnChain fs chain) delegate fileName = .found file data) :
    Followed fs (chain ++ [file]) [.inclusion chain fileName optional (.found file data)] shared shared' := by
  obtain ⟨diagnostics, hcallbacks, -, hnone⟩ := h.callbacks
  obtain rfl := hnone ⟨file, data, rfl⟩
  refine ⟨?_, by rw [h.table]; simp [TreeEvent.assignment?], _, hcallbacks, rfl, fun callback hmem => ?_⟩
  · rw [Tracks, h.elements, show shared.ancestorIncludes.elements = _ from ht, map_append]
    rfl
  · obtain rfl := mem_singleton.mp hmem
    exact faithful_inclusion ht hout

/-- **An inclusion that cannot be read** is reported while its file is taken for being parsed. -/
theorem Included.unfaithful {file : Text} (h : Included fs chain fileName optional shared (.unreadable file) shared')
    (ht : Tracks fs chain shared) : ∃ callback ∈ shared'.callbacks, ¬ callback.Faithful fs := by
  obtain ⟨diagnostics, hcallbacks, hsome, -⟩ := h.callbacks
  obtain ⟨d, hd⟩ := exists_mem_of_ne_nil _ (hsome ⟨file, rfl⟩)
  have hpaths : shared'.paths = chain ++ [file] := by
    rw [Shared.paths, h.elements, map_append, ← Shared.paths, ht.paths]
    rfl
  refine ⟨⟨.handleDiagnostic d, chain, shared'.paths⟩, ?_, fun hfaithful => ?_⟩
  · rw [hcallbacks]
    exact mem_append_right _ (mem_append_left _ (mem_map_of_mem hd))
  · have hlen := congrArg List.length hfaithful.ancestors
    rw [hpaths] at hlen
    simp at hlen

/-- The end of an inclusion takes its file from the chain. -/
theorem endPreprocessorInclusion_followed {file : Text} (ht : Tracks fs (chain ++ [file]) shared)
    (h : endPreprocessorInclusion (chain ++ [file]) shared = .ok shared') : Followed fs chain [] shared shared' := by
  have hprefix : chain.map fs.ancestorInclude ++ [fs.ancestorInclude file] <+: shared.ancestorIncludes.elements := by
    rw [show shared.ancestorIncludes.elements = _ from ht, map_append]
    exact prefix_rfl
  obtain ⟨shared₁, hend, -, helements, htable, hcallbacks⟩ := endPreprocessorInclusion_spec (chain ++ [file]) hprefix
  cases hend.symm.trans h
  refine ⟨?_, by rw [htable]; simp, _, hcallbacks, rfl, fun callback hmem => ?_⟩
  · rw [Tracks, helements, show shared.ancestorIncludes.elements = _ from ht, map_append]
    exact dropLast_concat
  · obtain rfl := mem_singleton.mp hmem
    exact faithful_of_tracks ht (by simp)

/-- A part of a load follows its part of the tree, or it comes to a file that cannot be read, and then some call
    is not faithful. -/
def Keeps (fs : FSProxy) (chain : List Text) (events : List TreeEvent) (shared shared' : Shared) : Prop :=
  ((∀ event ∈ events, ¬ event.Unreadable ∧ ¬ event.Undeclarable) ∧ Followed fs chain events shared shared') ∨
    ((∃ event ∈ events, event.Unreadable) ∧ ∃ callback ∈ shared'.callbacks, ¬ callback.Faithful fs)

theorem Keeps.tracks (h : Keeps fs chain events shared shared')
    (hevents : ∀ event ∈ events, ¬ event.Unreadable ∧ ¬ event.Undeclarable) : Tracks fs chain shared' := by
  rcases h with ⟨-, hfollowed⟩ | ⟨⟨event, hevent, hunreadable⟩, -⟩
  · exact hfollowed.tracks
  · exact absurd hunreadable (hevents event hevent).1

theorem Keeps.trans {chain' : List Text} {more : List TreeEvent} {shared₁ : Shared}
    (h : Keeps fs chain' events shared shared₁) (hcallbacks : shared₁.callbacks <+: shared'.callbacks)
    (h' : Tracks fs chain' shared₁ → Keeps fs chain more shared₁ shared') :
    Keeps fs chain (events ++ more) shared shared' := by
  rcases h with ⟨hread, hfollowed⟩ | ⟨⟨event, hevent, hunreadable⟩, callback, hmem, hnot⟩
  · rcases h' hfollowed.tracks with ⟨hread', hfollowed'⟩ | ⟨⟨event, hevent, hunreadable⟩, hbad⟩
    · refine .inl ⟨fun event hevent => ?_, hfollowed.trans hfollowed'⟩
      rcases mem_append.mp hevent with hold | hnew
      · exact hread event hold
      · exact hread' event hnew
    · exact .inr ⟨⟨event, mem_append_right _ hevent, hunreadable⟩, hbad⟩
  · exact .inr ⟨⟨event, mem_append_left _ hevent, hunreadable⟩, callback, hcallbacks.subset hmem, hnot⟩

/-- A line that is no inclusion follows its part of the tree. -/
theorem handleCall_keeps
    {call : DelegateCall} (hcall : ∀ fileName optional, call ≠ .foundPreprocessorInclusion fileName optional)
    (h : Tracks fs chain shared)
    (hrun : handleCall fs developerPath parseSubparser delegate chain path lineNumber call shared = .ok shared') :
    Keeps fs chain (assignmentsOf call) shared shared' := by
  refine .inl ⟨fun event hevent => ?_, handleCall_line hcall h hrun⟩
  cases call with
  | foundMacroValueAssignment macroName conditions value path startLine endLine startColumn endColumn =>
    obtain rfl := mem_singleton.mp hevent
    refine ⟨?_, ?_⟩
    · rintro ⟨chain, fileName, optional, file, h⟩
      exact absurd h (by simp)
    · rintro ⟨assignment, heq, hnot⟩
      cases heq
      exact absurd (foundMacroValueAssignment_eq_ok hrun).1 (by simp [hnot])
  | _ => exact absurd hevent not_mem_nil

/-- An inclusion that is not answered with a parser. -/
theorem Included.keeps (h : Included fs chain fileName optional shared outcome shared') (ht : Tracks fs chain shared)
    (hskipped : ∀ file data, outcome ≠ .found file data)
    (hout : outcomeWith fs developerPath (isOnChain fs chain) delegate fileName = outcome) :
    Keeps fs chain [.inclusion chain fileName optional outcome] shared shared' := by
  by_cases hunreadable : ∃ file, outcome = .unreadable file
  · obtain ⟨file, rfl⟩ := hunreadable
    exact .inr ⟨⟨_, mem_singleton_self _, _, _, _, _, rfl⟩, h.unfaithful ht⟩
  · have hpushed : outcome.pushed = none := by
      cases outcome with
      | unreadable file => exact absurd ⟨file, rfl⟩ hunreadable
      | found file data => exact absurd rfl (hskipped file data)
      | notFound | cyclic file | nonexistent file => rfl
    refine .inl ⟨fun event hevent => ?_, h.followed ht hpushed hout⟩
    obtain rfl := mem_singleton.mp hevent
    refine ⟨?_, fun ⟨_, heq, _⟩ => nomatch heq⟩
    rintro ⟨chain', fileName', optional', file, heq⟩
    exact hunreadable ⟨file, (TreeEvent.inclusion.inj heq).2.2.2⟩

theorem endPreprocessorInclusion_callbacks (h : endPreprocessorInclusion chain shared = .ok shared') :
    shared.callbacks <+: shared'.callbacks := by
  unfold endPreprocessorInclusion at h
  split at h
  · cases h
    exact prefix_append _ _
  · exact absurd h (by simp)

section

variable (htree : IncludeTree fs developerPath endsInBackslash trimmed chain delegate calls events)
include htree

/-- **A parse follows its part of the tree** until it comes to a file that cannot be read. The induction is on the
    tree. -/
theorem foldlM_keeps :
    ∀ (fuel : Nat) (path : Text) (shared shared' : Shared), Tracks fs chain shared →
      calls.foldlM (fun shared item => handleCall fs developerPath
        (parseFile fs developerPath endsInBackslash trimmed fuel) delegate chain path item.1 item.2 shared) shared =
          .ok shared' →
      Keeps fs chain events shared shared' := by
  induction htree with
  | nil =>
    intro fuel path shared shared' ht hrun
    cases hrun
    exact .inl ⟨by simp, .refl ht⟩
  | @line chain delegate lineNumber call rest events hcall hrest ih =>
    intro fuel path shared shared' ht hrun
    rw [foldlM_cons] at hrun
    obtain ⟨shared₁, hfirst, hrun⟩ := Fallible.bind_eq_ok.mp hrun
    exact (handleCall_keeps hcall ht hfirst).trans (foldlM_grows (parseFile_grows fuel) rest shared₁ hrun).callbacks (fun ht₁ => ih fuel path _ _ ht₁ hrun)
  | @skipped chain delegate lineNumber fileName optional outcome rest events houtcome hskipped hrest ih =>
    intro fuel path shared shared' ht hrun
    rw [foldlM_cons] at hrun
    obtain ⟨shared₁, hfirst, hrun⟩ := Fallible.bind_eq_ok.mp hrun
    obtain ⟨hout, hincluded⟩ := inclusion_spec fs developerPath delegate chain path lineNumber fileName optional shared
    rw [ht.contains, houtcome] at hout
    rw [hout] at hincluded
    rw [handleCall_skipped (by rw [hout]; exact hskipped)] at hfirst
    cases hfirst
    exact (hincluded.keeps ht hskipped houtcome).trans (foldlM_grows (parseFile_grows fuel) rest _ hrun).callbacks
      (fun ht₁ => ih fuel path _ _ ht₁ hrun)
  | @included chain delegate lineNumber fileName optional file data rest inner events houtcome hinner hrest ihinner ih =>
    intro fuel path shared shared' ht hrun
    rw [foldlM_cons] at hrun
    obtain ⟨shared₃, hfirst, hrun⟩ := Fallible.bind_eq_ok.mp hrun
    obtain ⟨hout, hincluded⟩ := inclusion_spec fs developerPath delegate chain path lineNumber fileName optional shared
    rw [ht.contains, houtcome] at hout
    rw [hout] at hincluded
    rw [handleCall_found hout] at hfirst
    obtain ⟨shared₂, hparse, hend⟩ := Fallible.bind_eq_ok.mp hfirst
    have hgrowsRest := foldlM_grows (parseFile_grows fuel) rest shared₃ hrun
    cases fuel with
    | zero => exact absurd hparse (by simp [parseFile])
    | succ fuel =>
      have hgrowsInner := parseFile_grows (fuel + 1) _ _ _ _ _ _ hparse
      rw [parseFile_succ] at hparse
      have hopened : Keeps fs (chain ++ [file]) [.inclusion chain fileName optional (.found file data)] shared
          (inclusion fs developerPath delegate chain path lineNumber fileName optional shared).2 := by
        refine .inl ⟨fun event hevent => ?_, hincluded.followed_found ht houtcome⟩
        obtain rfl := mem_singleton.mp hevent
        constructor
        · rintro ⟨chain', fileName', optional', file', heq⟩
          exact absurd (TreeEvent.inclusion.inj heq).2.2.2 (by simp)
        · rintro ⟨_, heq, -⟩
          cases heq
      have hparsed := hopened.trans hgrowsInner.callbacks (fun ht₁ => ihinner fuel file _ _ ht₁ hparse)
      have hended : Keeps fs chain (([.inclusion chain fileName optional (.found file data)] ++ inner) ++ []) shared shared₃ :=
        hparsed.trans (endPreprocessorInclusion_callbacks hend)
          (fun ht₂ => .inl ⟨by simp, endPreprocessorInclusion_followed ht₂ hend⟩)
      have hall := hended.trans hgrowsRest.callbacks (fun ht₃ => ih (fuel + 1) path _ _ ht₃ hrun)
      simpa using hall

/-- **A parse is not stopped** where all files of its part of the tree can be read and all names be declared. -/
theorem foldlM_not_stopped
    {violation : Violation} : ∀ (fuel : Nat) (path : Text) (shared : Shared),
      (∀ event ∈ events, ¬ event.Unreadable ∧ ¬ event.Undeclarable) → Tracks fs chain shared →
      calls.foldlM (fun shared item => handleCall fs developerPath
        (parseFile fs developerPath endsInBackslash trimmed fuel) delegate chain path item.1 item.2 shared) shared =
          .error violation →
      violation = .outOfFuel := by
  induction htree with
  | nil =>
    intro fuel path shared hevents ht hrun
    cases hrun
  | @line chain delegate lineNumber call rest events hcall hrest ih =>
    intro fuel path shared hevents ht hrun
    rw [foldlM_cons] at hrun
    rcases Fallible.bind_eq_error.mp hrun with hfirst | ⟨shared₁, hfirst, hrun⟩
    · cases call with
      | foundMacroValueAssignment macroName conditions value path startLine endLine startColumn endColumn =>
        exact absurd ⟨_, rfl, (foundMacroValueAssignment_eq_error hfirst).2⟩ (hevents _ (mem_append_left _ (mem_singleton_self _))).2
      | foundPreprocessorInclusion fileName optional => exact absurd rfl (hcall fileName optional)
      | _ => cases hfirst
    · exact ih fuel path shared₁ (fun event hevent => hevents event (mem_append_right _ hevent))
        (handleCall_line hcall ht hfirst).tracks hrun
  | @skipped chain delegate lineNumber fileName optional outcome rest events houtcome hskipped hrest ih =>
    intro fuel path shared hevents ht hrun
    obtain ⟨hout, hincluded⟩ := inclusion_spec fs developerPath delegate chain path lineNumber fileName optional shared
    rw [ht.contains, houtcome] at hout
    rw [hout] at hincluded
    rw [foldlM_cons, handleCall_skipped (by rw [hout]; exact hskipped)] at hrun
    exact ih fuel path _ (fun event hevent => hevents event (mem_cons_of_mem _ hevent))
      ((hincluded.keeps ht hskipped houtcome).tracks (forall_mem_singleton.mpr (hevents _ mem_cons_self))) hrun
  | @included chain delegate lineNumber fileName optional file data rest inner events houtcome hinner hrest ihinner ih =>
    intro fuel path shared hevents ht hrun
    obtain ⟨hout, hincluded⟩ := inclusion_spec fs developerPath delegate chain path lineNumber fileName optional shared
    rw [ht.contains, houtcome] at hout
    rw [hout] at hincluded
    have ht₁ := (hincluded.followed_found ht houtcome).tracks
    obtain ⟨hinnerEvents, hrestEvents⟩ := forall_mem_append.mp fun event hevent => hevents event (mem_cons_of_mem _ hevent)
    rw [foldlM_cons, handleCall_found hout] at hrun
    cases fuel with
    | zero =>
      cases hrun
      rfl
    | succ fuel =>
      rcases Fallible.bind_eq_error.mp hrun with hfirst | ⟨shared₃, hfirst, hrun⟩
      · rcases Fallible.bind_eq_error.mp hfirst with hparse | ⟨shared₂, hparse, hend⟩
        · rw [parseFile_succ] at hparse
          exact ihinner fuel file _ hinnerEvents ht₁ hparse
        · -- the file that ends is on the list
          have hgrows := parseFile_grows (fuel + 1) _ _ _ _ _ _ hparse
          have hprefix := hgrows.ancestors
          rw [hincluded.elements] at hprefix
          obtain ⟨shared₃, hok, -⟩ := endPreprocessorInclusion_spec (chain ++ [file]) hprefix
          cases hok.symm.trans hend
      · obtain ⟨shared₂, hparse, hend⟩ := Fallible.bind_eq_ok.mp hfirst
        rw [parseFile_succ] at hparse
        have ht₂ := (foldlM_keeps hinner fuel file _ _ ht₁ hparse).tracks hinnerEvents
        exact ih (fuel + 1) path shared₃ hrestEvents (endPreprocessorInclusion_followed ht₂ hend).tracks hrun

end

/-- **A load comes to an end, and it follows the include tree** of its start file exactly if no inclusion of the
    tree comes to a file that exists and cannot be read, and no assignment of it has an empty name. -/
theorem loadSettingsFromConfig_follows_iff (fs : FSProxy) (developerPath : Text) (endsInBackslash : Text → Bool)
    (trimmed : Text → Text) (path : Text) (searchPaths : List Text) {files : List Text}
    (hfin : ∀ file, fs.fileExists file = true → fs.resolvedPath file ∈ files) {fuel : Nat}
    (hfuel : files.length < fuel) :
    ∃ events, StartTree fs developerPath endsInBackslash trimmed path searchPaths events ∧
      loadSettingsFromConfig fs developerPath endsInBackslash trimmed fuel path searchPaths ≠ .error .outOfFuel ∧
      ((∃ info, loadSettingsFromConfig fs developerPath endsInBackslash trimmed fuel path searchPaths = .ok info ∧
          Follows fs info events) ↔
        ∀ event ∈ events, ¬ event.Unreadable ∧ ¬ event.Undeclarable) := by
  unfold loadSettingsFromConfig StartTree
  cases hread : fs.read path with
  | none =>
    dsimp only
    refine ⟨[], rfl, nofun, iff_of_true ⟨_, rfl, fun callback h => ?_, rfl, rfl⟩ (fun event h => ?_)⟩
    · cases h
    · cases h
  | some data =>
    dsimp only
    have hremaining : ∀ p : Text → Bool, (files.filter p).length < fuel :=
      fun p => Nat.lt_of_le_of_lt (length_filter_le p files) hfuel
    obtain ⟨events, htree⟩ := exists_includeTree developerPath endsInBackslash trimmed hfin fuel [path]
      ⟨some (Path.dirname path), searchPaths⟩
      (items endsInBackslash trimmed path data) (hremaining _)
    let start : Shared := {
      table := []
      diagnostics := []
      nestedConfigurations := [path]
      ancestorIncludes := (OrderedSet.empty.append (fs.ancestorInclude path)).2
      callbacks := [] }
    have ht : Tracks fs [path] start := rfl
    have hends := parseFile_ends developerPath endsInBackslash trimmed hfin fuel [path]
      ⟨some (Path.dirname path), searchPaths⟩ path data start (hremaining _)
    refine ⟨events, htree, ?_, ?_⟩
    · intro h
      rcases Fallible.bind_eq_error.mp h with hparse | ⟨shared', -, h⟩
      · exact hends hparse
      · cases h
    · obtain ⟨fuel, rfl⟩ := Nat.exists_eq_add_one_of_ne_zero (Nat.ne_of_gt (Nat.lt_of_le_of_lt (Nat.zero_le _) hfuel))
      rw [loadSettingsFromData]
      cases hparse : parseFile fs developerPath endsInBackslash trimmed (fuel + 1) [path]
          ⟨some (Path.dirname path), searchPaths⟩ path data start with
      | error violation =>
        refine iff_of_false (fun ⟨info, hinfo, _⟩ => ?_) (fun hevents => ?_)
        · cases hinfo
        · rw [hparse] at hends
          rw [parseFile_succ] at hparse
          exact hends (congrArg _ (foldlM_not_stopped htree fuel path start hevents ht hparse))
      | ok shared' =>
        rw [parseFile_succ] at hparse
        rcases foldlM_keeps htree fuel path start shared' ht hparse with
          ⟨hevents, hfollowed⟩ | ⟨⟨event, hevent, hunreadable⟩, callback, hmem, hnot⟩
        · obtain ⟨added, hadded, hinOrder, hfaithful⟩ := hfollowed.callbacks
          refine iff_of_true ⟨_, rfl, ?_, ?_, hfollowed.table⟩ hevents
          · rw [hadded]
            exact hfaithful
          · rw [hadded]
            exact hinOrder
        · refine iff_of_false (fun ⟨info, hinfo, hfollows⟩ => ?_) (fun h => (h event hevent).1 hunreadable)
          cases hinfo
          exact hnot (hfollows.callbacks callback hmem)

end Load

/-- A file system with these files; a file without data cannot be read. -/
def fileSystem (files : List (Text × Option Text)) : FSProxy where
  fileExists path := files.any (fun file => file.1 = path)
  read path := (files.lookup path).join
  resolvedPath path := path

/-- A file with an assignment that includes itself. -/
def cyclicFiles : List (Text × Option Text) := [(text "/a", some (text "#include \"/a\"\nA[b=c]=1\n"))]

theorem follows_iff_of_cycle :
    ∃ events, StartTree (fileSystem cyclicFiles) [] (fun _ => false) id (text "/a") [] events ∧
      loadSettingsFromConfig (fileSystem cyclicFiles) [] (fun _ => false) id 2 (text "/a") [] ≠ .error .outOfFuel ∧
      ((∃ info, loadSettingsFromConfig (fileSystem cyclicFiles) [] (fun _ => false) id 2 (text "/a") [] = .ok info ∧
          Follows (fileSystem cyclicFiles) info events) ↔
        ∀ event ∈ events, ¬ event.Unreadable ∧ ¬ event.Undeclarable) := by
  have hfin : ∀ file, (fileSystem cyclicFiles).fileExists file = true →
      (fileSystem cyclicFiles).resolvedPath file ∈ [text "/a"] := by
    intro file hfile
    simpa [fileSystem, cyclicFiles, eq_comm] using hfile
  exact loadSettingsFromConfig_follows_iff _ [] (fun _ => false) id (text "/a") [] hfin (by decide)

/-- Two inclusions of a file that includes one that cannot be read. -/
def unreadableFiles : List (Text × Option Text) :=
  [(text "/a", some (text "#include \"/b\"\n#include \"/b\"\n")), (text "/b", some (text "#include \"/u\"\nX=1\n")),
    (text "/u", none)]

/-- **After a file that cannot be read**, the second inclusion of `/b` is skipped as cyclic although nothing
    includes it any more, and its assignment is lost. -/
theorem not_follows_unreadable :
    ∃ info, loadSettingsFromConfig (fileSystem unreadableFiles) [] (fun _ => false) id 4 (text "/a") [] = .ok info ∧
      info.table.length = 1 ∧
      (∃ callback ∈ info.callbacks, callback.chain = [text "/a"] ∧ callback.ancestorIncludes = [text "/a", text "/b"]) ∧
      ∀ events, ¬ Follows (fileSystem unreadableFiles) info events := by
  have hrun : (match loadSettingsFromConfig (fileSystem unreadableFiles) [] (fun _ => false) id 4 (text "/a") [] with
      | .ok info => decide (info.table.length = 1) && info.callbacks.any (fun callback : Callback =>
          callback.chain = [text "/a"] ∧ callback.ancestorIncludes = [text "/a", text "/b"])
      | .error _ => false) = true := by decide +kernel
  cases hload : loadSettingsFromConfig (fileSystem unreadableFiles) [] (fun _ => false) id 4 (text "/a") [] with
  | error violation =>
    rw [hload] at hrun
    exact absurd hrun (by simp)
  | ok info =>
    rw [hload] at hrun
    obtain ⟨hlength, hany⟩ := Bool.and_eq_true_iff.mp hrun
    obtain ⟨callback, hmem, hcallback⟩ := any_eq_true.mp hany
    obtain ⟨hchain, hancestors⟩ := of_decide_eq_true hcallback
    refine ⟨info, rfl, of_decide_eq_true hlength, ⟨callback, hmem, hchain, hancestors⟩, fun events h => ?_⟩
    have heq := (h.callbacks callback hmem).ancestors
    rw [hchain, hancestors] at heq
    exact absurd heq (by decide)

end Builra.Macro.ConfigFile
