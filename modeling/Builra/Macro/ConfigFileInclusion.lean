import Builra.Lib.Fallible
import Builra.Macro.ConfigFileLoader
import Builra.Macro.ConfigFileLocality

namespace Builra.Macro.ConfigFile

open List

/-!
# `Macro.ConfigFileInclusion` — the files of a load and the files it takes for being parsed

A load follows the include tree of its start file as long as every file that is included can be read. A file
that exists and cannot be read is left on `ancestorIncludes`, and what ends the inclusion around it removes the
wrong file; the load still comes to an end, since no file is parsed inside itself. An empty name cannot be declared,
and stops it.
-/

/-! ## The calls of a file -/

section Items

variable (endsInBackslash : Text → Bool) (trimmed : Text → Text)

/-- The calls of the lines of a file, without what the delegate's answers add, and their line numbers. -/
def itemLoop (path : Text) : Nat → State → List (Nat × DelegateCall)
  | 0, _ => []
  | fuel + 1, s =>
    if s.rest = [] then []
    else
      match parseLine (fun _ => false) endsInBackslash trimmed path s with
      | .ok (calls, s') => calls.map (fun call => (s.currLine, call)) ++ itemLoop path fuel (scanEOL s')
      | .error _ => []

/-- The calls of a file, in textual order. -/
def items (path bytes : Text) : List (Nat × DelegateCall) :=
  itemLoop endsInBackslash trimmed path (bytes.length + 1) ⟨bytes, 1, 0⟩

end Items

theorem scanEOL_length_lt {s s' : State} (hne : s.rest ≠ []) (hend : isAtEndOfLine s'.rest = true)
    (hs : s'.rest <:+ s.rest) : (scanEOL s').rest.length < s.rest.length := by
  by_cases hnil : s'.rest = []
  · rw [scanEOL_nil hnil, hnil]
    exact length_pos_of_ne_nil hne
  · rw [scanEOL, if_neg (Nat.ne_of_gt (advancement_pos hend hnil))]
    exact Nat.lt_of_lt_of_le (drop_advancement_length hend hnil) hs.length_le

section Load

variable {fs : FSProxy} {developerPath : Text} {endsInBackslash : Text → Bool} {trimmed : Text → Text}
  {parseSubparser : List Text → Delegate → Text → Text → Shared → Except Violation Shared}
  {delegate : Delegate} {chain : List Text} {path bytes fileName : Text} {lineNumber fuel : Nat} {optional : Bool}
  {shared shared' : Shared}

/-- A parser makes the calls of its file, one after the other. -/
theorem lineLoop_eq (fuel : Nat) (s : State) (hfuel : s.rest.length < fuel) :
    ∀ shared : Shared,
      lineLoop fs developerPath endsInBackslash trimmed parseSubparser delegate chain path fuel s shared =
        (itemLoop endsInBackslash trimmed path fuel s).foldlM (fun shared item =>
          handleCall fs developerPath parseSubparser delegate chain path item.1 item.2 shared) shared := by
  induction fuel generalizing s with
  | zero => exact absurd hfuel (Nat.not_lt_zero _)
  | succ fuel ih =>
    intro shared
    rw [lineLoop, itemLoop]
    by_cases hnil : s.rest = []
    · rw [if_pos hnil, if_pos hnil]
      rfl
    · obtain ⟨calls, s', hr, hend, hs', -⟩ := parseLine_ends (fun _ => false) endsInBackslash trimmed path s
      have hlt := scanEOL_length_lt hnil hend hs'
      have hrest := ih (scanEOL s') (Nat.lt_of_lt_of_le hlt (Nat.le_of_lt_succ hfuel))
      rw [if_neg hnil, if_neg hnil, hr]
      simp only [bind, Except.bind, assert, hend, if_true]
      rw [foldlM_append, foldlM_map]
      simp only [hrest]
      rfl

/-- `parse` of a file. -/
theorem parseFile_succ (fuel : Nat) :
    parseFile fs developerPath endsInBackslash trimmed (fuel + 1) chain delegate path bytes shared =
      (items endsInBackslash trimmed path bytes).foldlM (fun shared item =>
        handleCall fs developerPath (parseFile fs developerPath endsInBackslash trimmed fuel) delegate chain path
          item.1 item.2 shared) shared := by
  rw [parseFile]
  exact lineLoop_eq (bytes.length + 1) ⟨bytes, 1, 0⟩ (Nat.lt_succ_self _) shared

/-! ## What a load keeps -/

/-- The files a load takes for being parsed are still there, and so are the recorded calls. -/
structure Grows (shared shared' : Shared) : Prop where
  ancestors : shared.ancestorIncludes.elements <+: shared'.ancestorIncludes.elements
  callbacks : shared.callbacks <+: shared'.callbacks

theorem Grows.refl (shared : Shared) : Grows shared shared := ⟨prefix_rfl, prefix_rfl⟩

theorem Grows.trans {shared₁ : Shared} (h : Grows shared shared₁) (h' : Grows shared₁ shared') : Grows shared shared' :=
  ⟨h.ancestors.trans h'.ancestors, h.callbacks.trans h'.callbacks⟩

theorem handleDiagnostic_grows (chain : List Text) (path : Text) (diagnostic : LoadDiagnostic) (shared : Shared) :
    Grows shared (handleDiagnostic chain path diagnostic shared) :=
  ⟨prefix_rfl, prefix_append _ _⟩

theorem beq_iff {a b : AncestorInclude} : (a == b) = true ↔ a.resolvedPath = b.resolvedPath :=
  beq_iff_eq (a := a.resolvedPath)

/-- Files are compared by their resolved paths. -/
theorem contains_iff {s : OrderedSet AncestorInclude} {a : AncestorInclude} :
    s.contains a = true ↔ a.resolvedPath ∈ s.elements.map (·.resolvedPath) := by
  rw [← Bool.not_eq_false, OrderedSet.contains, Option.isSome_eq_false_iff, Option.isNone_iff_eq_none,
    OrderedSet.firstIndex_eq_none, mem_map]
  constructor
  · intro h
    by_contra hno
    refine h (fun e he => Bool.eq_false_iff.mpr (fun heq => hno ⟨e, he, beq_iff.mp heq⟩))
  · rintro ⟨e, he, heq⟩ h
    exact absurd (beq_iff.mpr heq) (by simp [h e he])

/-- What is made of an inclusion when these files are taken for being parsed. -/
def outcomeWith (fs : FSProxy) (developerPath : Text) (isParsed : AncestorInclude → Bool) (delegate : Delegate)
    (fileName : Text) : Outcome :=
  match locate fs developerPath delegate fileName with
  | .error _ => .notFound
  | .ok path =>
    if isParsed (fs.ancestorInclude path) then .cyclic path
    else if !fs.fileExists path then .nonexistent path
    else
      match fs.read path with
      | none => .unreadable path
      | some data => .found path data

/-- The file that is pushed on `ancestorIncludes`. -/
def Outcome.pushed : Outcome → Option Text
  | .unreadable path => some path
  | .found path _ => some path
  | _ => none

/-- The paths of `ancestorIncludes`. -/
def Shared.paths (shared : Shared) : List Text := shared.ancestorIncludes.elements.map (·.path)

/-- What the delegate does with an inclusion. -/
structure Included (fs : FSProxy) (chain : List Text) (fileName : Text) (optional : Bool) (shared : Shared)
    (outcome : Outcome) (after : Shared) : Prop where
  table : after.table = shared.table
  ancestors : after.ancestorIncludes = match outcome.pushed with
    | some path => (shared.ancestorIncludes.append (fs.ancestorInclude path)).2
    | none => shared.ancestorIncludes
  isNew : ∀ path, outcome.pushed = some path → shared.ancestorIncludes.contains (fs.ancestorInclude path) = false
  callbacks : ∃ diagnostics : List LoadDiagnostic,
    after.callbacks = shared.callbacks ++ (diagnostics.map (fun d => ⟨.handleDiagnostic d, chain, after.paths⟩) ++
      [⟨.foundPreprocessorInclusion fileName optional outcome, chain, shared.paths⟩]) ∧
    ((∃ path, outcome = .unreadable path) → diagnostics ≠ []) ∧
    ((∃ path data, outcome = .found path data) → diagnostics = [])

theorem included_record {outcome : Outcome} {after : Shared} (diagnostics : List LoadDiagnostic)
    (htable : after.table = shared.table)
    (hancestors : after.ancestorIncludes = match outcome.pushed with
      | some path => (shared.ancestorIncludes.append (fs.ancestorInclude path)).2
      | none => shared.ancestorIncludes)
    (hnew : ∀ path, outcome.pushed = some path → shared.ancestorIncludes.contains (fs.ancestorInclude path) = false)
    (hcallbacks : after.callbacks =
      shared.callbacks ++ diagnostics.map (fun d => ⟨.handleDiagnostic d, chain, after.paths⟩))
    (hunreadable : (∃ path, outcome = .unreadable path) → diagnostics ≠ [])
    (hfound : (∃ path data, outcome = .found path data) → diagnostics = []) :
    Included fs chain fileName optional shared outcome
      (after.record (.foundPreprocessorInclusion fileName optional outcome) chain shared.ancestorIncludes) := by
  refine ⟨htable, hancestors, hnew, diagnostics, ?_, hunreadable, hfound⟩
  show after.callbacks ++ [_] = _
  rw [hcallbacks, append_assoc]
  rfl

/-- **What an inclusion does**: its outcome depends on the files taken for being parsed only. -/
theorem inclusion_spec (fs : FSProxy) (developerPath : Text) (delegate : Delegate) (chain : List Text) (path : Text)
    (lineNumber : Nat) (fileName : Text) (optional : Bool) (shared : Shared) :
    (inclusion fs developerPath delegate chain path lineNumber fileName optional shared).1 =
        outcomeWith fs developerPath (fun a => shared.ancestorIncludes.contains a) delegate fileName ∧
      Included fs chain fileName optional shared
        (inclusion fs developerPath delegate chain path lineNumber fileName optional shared).1
        (inclusion fs developerPath delegate chain path lineNumber fileName optional shared).2 := by
  have hnone : ∀ outcome : Outcome, outcome.pushed = none → ∀ path, outcome.pushed = some path →
      shared.ancestorIncludes.contains (fs.ancestorInclude path) = false :=
    fun outcome h path h' => absurd (h.symm.trans h') (by simp)
  unfold inclusion foundPreprocessorInclusion outcomeWith
  dsimp only
  cases locate fs developerPath delegate fileName with
  | error message =>
    refine ⟨rfl, ?_⟩
    cases optional with
    | true => exact included_record [] rfl rfl (hnone _ rfl) (by simp) (by simp) (by simp)
    | false => exact included_record [_] rfl rfl (hnone _ rfl) rfl (by simp) (by simp)
  | ok subpath =>
    dsimp only
    by_cases hcontains : shared.ancestorIncludes.contains (fs.ancestorInclude subpath) = true
    · rw [if_pos hcontains, if_pos hcontains]
      exact ⟨rfl, included_record [_] rfl rfl (hnone _ rfl) rfl (by simp) (by simp)⟩
    · rw [if_neg hcontains, if_neg hcontains]
      by_cases hexists : (!fs.fileExists subpath) = true
      · rw [if_pos hexists, if_pos hexists]
        refine ⟨rfl, ?_⟩
        cases optional with
        | true => exact included_record [] rfl rfl (hnone _ rfl) (by simp) (by simp) (by simp)
        | false => exact included_record [_] rfl rfl (hnone _ rfl) rfl (by simp) (by simp)
      · rw [if_neg hexists, if_neg hexists]
        have hnew : ∀ p, some subpath = some p →
            shared.ancestorIncludes.contains (fs.ancestorInclude p) = false := by
          intro p hp
          cases hp
          simpa using hcontains
        cases fs.read subpath with
        | none => exact ⟨rfl, included_record [_] rfl rfl hnew rfl (by simp) (by simp)⟩
        | some data => exact ⟨rfl, included_record [] rfl rfl hnew (by simp) (by simp) (by simp)⟩

variable {outcome : Outcome}

section

variable (h : Included fs chain fileName optional shared outcome shared')
include h

/-- The file that is pushed comes last. -/
theorem Included.elements :
    shared'.ancestorIncludes.elements =
      shared.ancestorIncludes.elements ++ (outcome.pushed.map fs.ancestorInclude).toList := by
  rw [h.ancestors]
  cases hpushed : outcome.pushed with
  | none => simp
  | some path =>
    obtain ⟨-, helements⟩ := OrderedSet.append_of_not_contains (h.isNew path hpushed)
    exact helements

theorem Included.grows : Grows shared shared' := by
  obtain ⟨diagnostics, hcallbacks, -⟩ := h.callbacks
  refine ⟨?_, ?_⟩
  · rw [h.elements]
    exact prefix_append _ _
  · rw [hcallbacks]
    exact prefix_append _ _

end

/-- Ending an inclusion removes one file, the last one. -/
theorem endPreprocessorInclusion_spec (chain : List Text) {x : AncestorInclude} {ancestors : List AncestorInclude}
    (h : ancestors ++ [x] <+: shared.ancestorIncludes.elements) :
    ∃ shared', endPreprocessorInclusion chain shared = .ok shared' ∧
      ancestors <+: shared'.ancestorIncludes.elements ∧
      shared'.ancestorIncludes.elements = shared.ancestorIncludes.elements.dropLast ∧ shared'.table = shared.table ∧
      shared'.callbacks = shared.callbacks ++ [⟨.endPreprocessorInclusion, chain, shared.paths⟩] := by
  obtain ⟨more, hmore⟩ := h
  have hne : shared.ancestorIncludes.elements ≠ [] := by
    rw [← hmore]
    simp
  unfold endPreprocessorInclusion OrderedSet.removeLast
  rw [List.getLast?_eq_some_getLast hne]
  refine ⟨_, rfl, ?_, rfl, rfl, rfl⟩
  -- what was there before the inclusion is not the last file
  show ancestors <+: shared.ancestorIncludes.elements.dropLast
  rw [← hmore, append_assoc, singleton_append, dropLast_append_of_ne_nil (cons_ne_nil _ _)]
  exact prefix_append _ _

variable {data subpath : Text} {files : List Text}

/-- An inclusion that is answered with a parser. -/
theorem handleCall_found
    (h : (inclusion fs developerPath delegate chain path lineNumber fileName optional shared).1 = .found subpath data) :
    handleCall fs developerPath parseSubparser delegate chain path lineNumber
        (.foundPreprocessorInclusion fileName optional) shared =
      (parseSubparser (chain ++ [subpath]) (delegate.nested subpath) subpath data
        (inclusion fs developerPath delegate chain path lineNumber fileName optional shared).2).bind
          (endPreprocessorInclusion (chain ++ [subpath])) := by
  unfold handleCall
  dsimp only
  generalize inclusion fs developerPath delegate chain path lineNumber fileName optional shared = result at h
  obtain ⟨outcome, after⟩ := result
  obtain rfl : outcome = _ := h
  rfl

/-- An inclusion that is not answered with a parser. -/
theorem handleCall_skipped
    (h : ∀ subpath data,
      (inclusion fs developerPath delegate chain path lineNumber fileName optional shared).1 ≠ .found subpath data) :
    handleCall fs developerPath parseSubparser delegate chain path lineNumber
        (.foundPreprocessorInclusion fileName optional) shared =
      .ok (inclusion fs developerPath delegate chain path lineNumber fileName optional shared).2 := by
  unfold handleCall
  dsimp only
  generalize inclusion fs developerPath delegate chain path lineNumber fileName optional shared = result at h
  obtain ⟨outcome, after⟩ := result
  cases outcome with
  | found subpath data => exact absurd rfl (h subpath data)
  | notFound | cyclic subpath | nonexistent subpath | unreadable subpath => rfl

/-- An assignment is pushed if its names can be declared. -/
theorem foundMacroValueAssignment_eq_ok {assignment : Assignment}
    (h : foundMacroValueAssignment chain assignment shared = .ok shared') : assignment.isDeclarable = true ∧
      { shared.record (.foundMacroValueAssignment assignment) chain shared.ancestorIncludes with
        table := shared.table ++ [assignment] } = shared' := by
  rw [foundMacroValueAssignment] at h
  split_ifs at h with hdeclarable
  exact ⟨hdeclarable, Except.ok.inj h⟩

theorem foundMacroValueAssignment_eq_error {assignment : Assignment} {violation : Violation}
    (h : foundMacroValueAssignment chain assignment shared = .error violation) :
    violation = .precondition ∧ assignment.isDeclarable = false := by
  rw [foundMacroValueAssignment] at h
  split_ifs at h with hdeclarable
  exact ⟨(Except.error.inj h).symm, Bool.eq_false_iff.mpr hdeclarable⟩

section

variable (hsub : ∀ chain delegate path data shared shared', parseSubparser chain delegate path data shared = .ok
    shared' → Grows shared shared')
include hsub

/-- Whatever the delegate of an included file does, what a call finds is kept. -/
theorem handleCall_grows {item : Nat × DelegateCall}
    (h : handleCall fs developerPath parseSubparser delegate chain path item.1 item.2 shared = .ok shared') :
    Grows shared shared' := by
  obtain ⟨lineNumber, call⟩ := item
  cases call with
  | handleDiagnostic diagnostic =>
    cases h
    exact handleDiagnostic_grows _ _ _ _
  | foundMacroValueAssignment macroName conditions value path startLine endLine startColumn endColumn =>
    obtain ⟨-, rfl⟩ := foundMacroValueAssignment_eq_ok h
    exact ⟨prefix_rfl, prefix_append _ _⟩
  | parseSubparser | endPreprocessorInclusion =>
    cases h
    exact Grows.refl _
  | foundPreprocessorInclusion fileName optional =>
    obtain ⟨-, hincluded⟩ := inclusion_spec fs developerPath delegate chain path lineNumber fileName optional shared
    by_cases hfound : ∃ subpath data,
        (inclusion fs developerPath delegate chain path lineNumber fileName optional shared).1 = .found subpath data
    · obtain ⟨subpath, data, hfound⟩ := hfound
      rw [hfound] at hincluded
      dsimp only at h
      rw [handleCall_found hfound] at h
      obtain ⟨shared₂, hparse, h⟩ := Fallible.bind_eq_ok.mp h
      have hgrows := hsub _ _ _ _ _ _ hparse
      have hprefix := hgrows.ancestors
      rw [hincluded.elements] at hprefix
      obtain ⟨shared₃, hend, hanc, -, -, hcallbacks⟩ := endPreprocessorInclusion_spec (chain ++ [subpath]) hprefix
      cases hend.symm.trans h
      refine ⟨hanc, hincluded.grows.callbacks.trans (hgrows.callbacks.trans ?_)⟩
      rw [hcallbacks]
      exact prefix_append _ _
    · dsimp only at h
      rw [handleCall_skipped (fun subpath data hout => hfound ⟨subpath, data, hout⟩)] at h
      cases h
      exact hincluded.grows

theorem foldlM_grows
    (calls : List (Nat × DelegateCall)) :
    ∀ shared, calls.foldlM (fun shared item =>
        handleCall fs developerPath parseSubparser delegate chain path item.1 item.2 shared) shared = .ok shared' →
      Grows shared shared' := by
  induction calls with
  | nil =>
    intro shared h
    cases h
    exact Grows.refl _
  | cons item rest ih =>
    intro shared h
    rw [foldlM_cons] at h
    obtain ⟨shared₁, hcall, hrest⟩ := Fallible.bind_eq_ok.mp h
    exact (handleCall_grows hsub hcall).trans (ih shared₁ hrest)

end

/-- **A parse keeps** the files taken for being parsed, and the recorded calls. -/
theorem parseFile_grows (fuel : Nat) : ∀ chain delegate path data shared shared',
    parseFile fs developerPath endsInBackslash trimmed fuel chain delegate path data shared = .ok shared' →
      Grows shared shared' := by
  induction fuel with
  | zero =>
    intro chain delegate path data shared shared' h
    exact absurd h (by simp [parseFile])
  | succ fuel ih =>
    intro chain delegate path data shared shared' h
    rw [parseFile_succ] at h
    exact foldlM_grows ih _ _ h

/-! ## A load comes to its end -/

local instance : LawfulBEq Text := inferInstance

/-- The files that are not taken for being parsed. -/
def remaining (files : List Text) (shared : Shared) : Nat :=
  (files.filter (fun file => file ∉ shared.ancestorIncludes.elements.map (·.resolvedPath))).length

theorem Grows.remaining_le (h : Grows shared shared') :
    remaining files shared' ≤ remaining files shared := by
  unfold remaining
  refine List.Sublist.length_le (monotone_filter_right files (fun file hfile => ?_))
  rw [decide_eq_true_iff] at hfile ⊢
  exact fun hmem => hfile ((h.ancestors.map _).subset hmem)

/-- One file more is being parsed, one file fewer remains. -/
theorem length_filter_notMem_lt {parsed : List Text} {file : Text} (hmem : file ∈ files) (hnew : file ∉ parsed) :
    (files.filter (fun f => f ∉ parsed ++ [file])).length < (files.filter (fun f => f ∉ parsed)).length := by
  have hfilter : files.filter (fun f => f ∉ parsed ++ [file]) =
      (files.filter (fun f => f ∉ parsed)).filter (fun f => f ≠ file) := by
    rw [filter_filter]
    refine filter_congr (fun f _ => ?_)
    rw [Bool.eq_iff_iff, Bool.and_eq_true, decide_eq_true_iff, decide_eq_true_iff, decide_eq_true_iff,
      mem_append, not_or, and_comm, mem_singleton]
  rw [hfilter, length_filter_lt_length_iff_exists]
  exact ⟨file, mem_filter.mpr ⟨hmem, by simpa using hnew⟩, by simp⟩

theorem Included.remaining_lt (h : Included fs chain fileName optional shared (.found subpath data) shared')
    (hmem : fs.resolvedPath subpath ∈ files) : remaining files shared' < remaining files shared := by
  have hnew : fs.resolvedPath subpath ∉ shared.ancestorIncludes.elements.map (·.resolvedPath) := by
    intro hin
    have hcontains : shared.ancestorIncludes.contains (fs.ancestorInclude subpath) = true := contains_iff.mpr hin
    rw [h.isNew subpath rfl] at hcontains
    exact absurd hcontains (by simp)
  unfold remaining
  rw [h.elements, map_append]
  exact length_filter_notMem_lt hmem hnew

/-- What an outcome that names a file says about it. -/
theorem outcomeWith_found {isParsed : AncestorInclude → Bool}
    (h : outcomeWith fs developerPath isParsed delegate fileName = .found subpath data) :
    fs.fileExists subpath = true ∧ fs.read subpath = some data ∧ isParsed (fs.ancestorInclude subpath) = false := by
  unfold outcomeWith at h
  cases hlocate : locate fs developerPath delegate fileName with
  | error message =>
    rw [hlocate] at h
    exact absurd h (by simp)
  | ok p =>
    rw [hlocate] at h
    dsimp only at h
    split_ifs at h with hparsed hexists
    cases hread : fs.read p with
    | none =>
      rw [hread] at h
      exact absurd h (by simp)
    | some bytes =>
      rw [hread] at h
      obtain ⟨rfl, rfl⟩ := Outcome.found.inj h
      exact ⟨by simpa using hexists, hread, by simpa using hparsed⟩

theorem handleCall_ends (developerPath : Text) (delegate : Delegate) (chain : List Text) (path : Text)
    (item : Nat × DelegateCall) {n : Nat} (hfin : ∀ path, fs.fileExists path = true → fs.resolvedPath path ∈ files)
    (hgrows : ∀ chain delegate path data shared shared',
      parseSubparser chain delegate path data shared = .ok shared' → Grows shared shared')
    (hsub : ∀ chain delegate path data shared, remaining files shared < n →
      parseSubparser chain delegate path data shared ≠ .error .outOfFuel) (hrem : remaining files shared ≤ n) :
    handleCall fs developerPath parseSubparser delegate chain path item.1 item.2 shared ≠ .error .outOfFuel := by
  obtain ⟨lineNumber, call⟩ := item
  cases call with
  | handleDiagnostic diagnostic | parseSubparser | endPreprocessorInclusion => exact fun h => by cases h
  | foundMacroValueAssignment macroName conditions value path startLine endLine startColumn endColumn =>
    intro h
    cases (foundMacroValueAssignment_eq_error h).1
  | foundPreprocessorInclusion fileName optional =>
    obtain ⟨houtcome, hincluded⟩ := inclusion_spec fs developerPath delegate chain path lineNumber fileName optional shared
    by_cases hfound : ∃ subpath data,
        (inclusion fs developerPath delegate chain path lineNumber fileName optional shared).1 = .found subpath data
    · obtain ⟨subpath, data, hfound⟩ := hfound
      dsimp only
      rw [handleCall_found hfound]
      rw [hfound] at hincluded houtcome
      -- the file is new among those being parsed
      have hmem := hfin subpath (outcomeWith_found houtcome.symm).1
      intro h
      rcases Fallible.bind_eq_error.mp h with hparse | ⟨shared₂, hparse, hend⟩
      · exact hsub (chain ++ [subpath]) (delegate.nested subpath) subpath data _
          (Nat.lt_of_lt_of_le (hincluded.remaining_lt hmem) hrem) hparse
      · have hprefix := (hgrows _ _ _ _ _ _ hparse).ancestors
        rw [hincluded.elements] at hprefix
        obtain ⟨shared₃, hok, -⟩ := endPreprocessorInclusion_spec (chain ++ [subpath]) hprefix
        cases hok.symm.trans hend
    · dsimp only
      rw [handleCall_skipped (fun subpath data hout => hfound ⟨subpath, data, hout⟩)]
      exact fun h => by cases h

/-- **A parse comes to an end** once its bound is above the number of files that remain. -/
theorem parseFile_ends (developerPath : Text) (endsInBackslash : Text → Bool) (trimmed : Text → Text)
    (hfin : ∀ path, fs.fileExists path = true → fs.resolvedPath path ∈ files) (fuel : Nat) :
    ∀ chain delegate path data shared, remaining files shared < fuel →
      parseFile fs developerPath endsInBackslash trimmed fuel chain delegate path data shared ≠ .error .outOfFuel := by
  induction fuel with
  | zero => exact fun _ _ _ _ _ hrem => absurd hrem (Nat.not_lt_zero _)
  | succ fuel ih =>
    intro chain delegate path data shared hrem
    rw [parseFile_succ]
    generalize items endsInBackslash trimmed path data = calls
    induction calls generalizing shared with
    | nil => exact fun h => by cases h
    | cons item rest ihrest =>
      rw [foldlM_cons]
      intro h
      rcases Fallible.bind_eq_error.mp h with hcall | ⟨shared₁, hcall, hrest⟩
      · exact handleCall_ends developerPath delegate chain path item hfin (parseFile_grows fuel) ih
          (Nat.le_of_lt_succ hrem) hcall
      · have hgrows := handleCall_grows (parseFile_grows fuel) hcall
        exact ihrest shared₁ (Nat.lt_of_le_of_lt hgrows.remaining_le hrem) hrest

end Load

end Builra.Macro.ConfigFile
