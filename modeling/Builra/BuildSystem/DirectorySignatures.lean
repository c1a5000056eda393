import Builra.BuildSystem.DirectoryValues

namespace Builra

open List FileSystem

/-!
# `BuildSystem.DirectorySignatures` — what the signature of a directory determines

Two states of a file system are compared by what can be seen of the entries under a path: everything that `stat`
says for tree signatures, and the modes for structure signatures. Nothing is seen of excluded names, and of the
entries whose nodes are virtual only that they are there.

`signatures_determine_entries` says that equal tree signatures mean equal entries, and that structure signatures are
equal exactly if the structures are. The hash functions are ideal ones.
-/

open FileSystem (Name Path slash)
open Demand

namespace DirectoryTasks

open SignatureTask

variable {S : Type} {env : Env S} {fs fs' : FileSystem} {path : Path} {filters : List Name} {kind : SignatureKind}
  {v v' : Value S}

/-- Hash functions that lose nothing. -/
structure TreeHash.Ideal (hash : TreeHash S) : Prop where
  lossless : Digest.Lossless hash.hashValue hash.hashCombine
  hashCombineRange_injective : Function.Injective hash.hashCombineRange
  number_injective : Function.Injective hash.number

/-! ## Entries under a path -/

/-- The path of an entry under a path. -/
def descend (path : Path) (rel : List Name) : Path := rel.foldl FileSystem.append path

/-- No entry on the way is excluded, and none is a virtual node, at which the way would end. -/
def Tracked (env : Env S) (filters : List Name) : Path → List Name → Prop
  | _, [] => True
  | path, x :: rest => FileSystem.ProperName x ∧ excluded env filters x = false ∧
      (rest ≠ [] → (env.lookupNode (FileSystem.append path x)).isVirtual = false) ∧
        Tracked env filters (FileSystem.append path x) rest

/-- No node at the path or under it has a producer. -/
def InputsOnly (env : Env S) (path : Path) : Prop :=
  ∀ rel, (∀ x ∈ rel, FileSystem.ProperName x) → (env.lookupNode (descend path rel)).producers = []

/-- What is seen of an entry: whether it is there, and then `observe` of its information unless its node is
    virtual. -/
def view {β : Type} (observe : FileInfo → β) (env : Env S) (fs : FileSystem) (path : Path) : Option (Option β) :=
  if (fs.getFileInfo path).isMissing then none
  else some (if (env.lookupNode path).isVirtual then none else some (observe (fs.getFileInfo path)))

/-- The same is seen of all entries under the path. -/
def SameEntries {β : Type} (observe : FileInfo → β) (env : Env S) (filters : List Name) (fs fs' : FileSystem)
    (path : Path) : Prop :=
  ∀ rel, rel ≠ [] → Tracked env filters path rel →
    view observe env fs (descend path rel) = view observe env fs' (descend path rel)

theorem InputsOnly.producers (h : InputsOnly env path) : (env.lookupNode path).producers = [] :=
  h [] (by simp)

variable {x : Name} {β : Type} {l l' : List (SubpathInfo S)} {dv : Value S} {task : SignatureTask S}

theorem InputsOnly.child (h : InputsOnly env path) (hx : FileSystem.ProperName x) :
    InputsOnly env (FileSystem.append path x) := by
  intro rel hrel
  refine h (x :: rel) fun y hy => ?_
  rcases mem_cons.mp hy with rfl | hy
  · exact hx
  · exact hrel y hy

theorem Tracked.proper {rel : List Name} (h : Tracked env filters path rel) : ∀ x ∈ rel, FileSystem.ProperName x := by
  induction rel generalizing path with
  | nil => simp
  | cons x rel ih =>
    obtain ⟨hx, -, -, hrest⟩ := h
    intro y hy
    rcases mem_cons.mp hy with rfl | hy
    · exact hx
    · exact ih hrest y hy

variable {observe : FileInfo → β} {task' : SignatureTask S}

theorem view_of_missing (h : (fs.getFileInfo path).isMissing = true) :
    view observe env fs path = none :=
  if_pos h

/-- Under a path with nothing in it, there is nothing. -/
theorem missing_descend {rel : List Name} (hpath : path ≠ []) (h : fs.directoryIterator path = []) (hne : rel ≠ [])
    (hrel : ∀ x ∈ rel, FileSystem.ProperName x) : (fs.getFileInfo (descend path rel)).isMissing = true := by
  induction rel generalizing path with
  | nil => exact absurd rfl hne
  | cons x rel ih =>
    have hx := hrel x (by simp)
    have hmissing : (fs.getFileInfo (append path x)).isMissing = true := by
      rw [← Bool.not_eq_false, ← mem_directoryIterator_iff hpath hx, h]
      simp
    cases rel with
    | nil => exact hmissing
    | cons y rel =>
      exact ih (append_ne_nil path hx) (directoryIterator_of_isMissing hmissing) (by simp)
        fun z hz => hrel z (by simp [hz])

/-- The value of the node of a listed name. -/
theorem inputValue_of_mem (hx : x ∈ fs.directoryIterator path) :
    inputValue env fs (FileSystem.append path x) =
      if (env.lookupNode (FileSystem.append path x)).isVirtual then .virtualInput
      else .existingInput (fs.getFileInfo (FileSystem.append path x)) := by
  have hproper := proper_of_mem hx
  rw [inputValue, nodePath_of_getLast?_ne (getLast?_append_ne_slash path hproper), fileValue,
    getFileInfo_append_of_mem hx]
  rfl

/-! ## From values to entries -/

/-- What equal signatures say about one directory: the listings agree, and each name in them has the same
    observation and, if it is a directory, the same signature. -/
structure ChildrenAgree {β : Type} (observe : FileInfo → β) (env : Env S) (kind : SignatureKind)
    (filters : List Name) (fs fs' : FileSystem) (path : Path) : Prop where
  listed : listed env fs filters path = listed env fs' filters path
  observe : ∀ x ∈ DirectoryTasks.listed env fs filters path,
    (env.lookupNode (FileSystem.append path x)).isVirtual = false →
      observe (fs.getFileInfo (FileSystem.append path x)) = observe (fs'.getFileInfo (FileSystem.append path x))
  signature : ∀ x ∈ DirectoryTasks.listed env fs filters path,
    (env.lookupNode (FileSystem.append path x)).isVirtual = false →
      (fs.getFileInfo (FileSystem.append path x)).isDirectory = true →
        ∃ s, Evaluates (tasks env fs) (signatureKey kind (FileSystem.append path x) filters) s ∧
          Evaluates (tasks env fs') (signatureKey kind (FileSystem.append path x) filters) s

variable (kind) in
/-- **Equal signatures mean equal entries**, if they do so one level down. -/
theorem sameEntries_of_childrenAgree
    (hobserve : ∀ info info', observe info = observe info' → info.isDirectory = info'.isDirectory)
    (hagree : ∀ path v, InputsOnly env path → Evaluates (tasks env fs) (signatureKey kind path filters) v →
      Evaluates (tasks env fs') (signatureKey kind path filters) v →
        ChildrenAgree observe env kind filters fs fs' path) (hpath : path ≠ []) (hinputs : InputsOnly env path)
    (hv : Evaluates (tasks env fs) (signatureKey kind path filters) v)
    (hv' : Evaluates (tasks env fs') (signatureKey kind path filters) v) :
    SameEntries observe env filters fs fs' path := by
  intro rel hne htracked
  -- along the way to the entry
  induction rel generalizing path v with
  | nil => exact absurd rfl hne
  | cons x rest ih =>
    have hproper := htracked.proper
    obtain ⟨hx, hexcluded, hvirtual, hrest⟩ := htracked
    have hchildren := hagree path v hinputs hv hv'
    have hmem : ∀ fs : FileSystem, x ∈ listed env fs filters path ↔
        (fs.getFileInfo (append path x)).isMissing = false := by
      intro fs
      rw [mem_listed, and_iff_left hexcluded, mem_directoryIterator_iff hpath hx]
    by_cases hlisted : x ∈ listed env fs filters path
    · have hlisted' : x ∈ listed env fs' filters path := hchildren.listed ▸ hlisted
      cases rest with
      | nil =>
        show view observe env fs (append path x) = view observe env fs' (append path x)
        rw [view, view, (hmem fs).mp hlisted, (hmem fs').mp hlisted']
        cases hvirtual' : (env.lookupNode (append path x)).isVirtual with
        | true => rfl
        | false => rw [hchildren.observe x hlisted hvirtual']
      | cons y rest =>
        have hvirtual' := hvirtual (by simp)
        have hdirectory := hobserve _ _ (hchildren.observe x hlisted hvirtual')
        have hchild := append_ne_nil path hx
        cases hdir : (fs.getFileInfo (append path x)).isDirectory with
        | true =>
          obtain ⟨s, hs, hs'⟩ := hchildren.signature x hlisted hvirtual' hdir
          exact ih hchild (hinputs.child hx) hs hs' (by simp) hrest
        | false =>
          rw [hdir] at hdirectory
          have hbelow : ∀ z ∈ y :: rest, FileSystem.ProperName z := fun z hz => hproper z (mem_cons_of_mem x hz)
          have hmissing := missing_descend hchild (directoryIterator_of_file hdir) (by simp) hbelow
          have hmissing' :=
            missing_descend hchild (directoryIterator_of_file hdirectory.symm) (by simp) hbelow
          exact (view_of_missing hmissing).trans (view_of_missing hmissing').symm
    · -- nothing is under a name that is not there
      have hlisted' : x ∉ listed env fs' filters path := hchildren.listed ▸ hlisted
      have hmissing : ∀ fs : FileSystem, x ∉ listed env fs filters path →
          (fs.getFileInfo (descend path (x :: rest))).isMissing = true := by
        intro fs hnot
        rw [hmem, Bool.not_eq_false] at hnot
        cases rest with
        | nil => exact hnot
        | cons y rest =>
          show (fs.getFileInfo (descend (append path x) (y :: rest))).isMissing = true
          exact missing_descend (append_ne_nil path hx) (directoryIterator_of_isMissing hnot)
            (cons_ne_nil y rest) fun z hz => hproper z (mem_cons_of_mem x hz)
      exact (view_of_missing (hmissing fs hlisted)).trans (view_of_missing (hmissing fs' hlisted')).symm

/-! ## The items of a signature -/

section

variable (hash : TreeHash S)

/-- What is combined for the signature of a child. -/
def signatureItem (directorySignatureValue : Option (Value S)) : S :=
  match directorySignatureValue with
  | some data => hash.hashCombineRange data
  | none => hash.number nothing

/-- What a tree signature combines for a child. -/
def treeItems (child : SubpathInfo S) : List S :=
  [hash.hashCombineRange (child.value.getD .invalid), signatureItem hash child.directorySignatureValue]

/-- What a structure signature combines for the value of a child. -/
def modeItem (value : Value S) : S :=
  match value with
  | .existingInput outputInfo => hash.number outputInfo.mode
  | value => hash.hashCombineRange value

/-- What a structure signature combines for a child. -/
def structureItems (child : SubpathInfo S) : List S :=
  [hash.hashValue child.filename, modeItem hash (child.value.getD .invalid),
    signatureItem hash child.directorySignatureValue]

/-- What a structure signature combines for the directory. -/
def directoryItem (value : Value S) : S :=
  match value with
  | .directoryContents directoryInfo _ => hash.number directoryInfo.mode
  | value => hash.hashCombineRange value

theorem combineSignature_eq (code : S) (data : Option (Value S)) :
    combineSignature hash code data = hash.hashCombine code (signatureItem hash data) := by
  cases data <;> rfl

theorem treeSignature_eq (task : SignatureTask S) : task.treeSignature hash =
    (hash.hashCombineRange (task.directoryValue.getD .invalid) :: task.childResults.flatMap (treeItems hash)).foldl
      hash.hashCombine (hash.hashValue task.path) := by
  rw [foldl_cons, foldl_flatMap, treeSignature]
  simp only [combineSignature_eq]
  rfl

theorem structureSignature_eq (task : SignatureTask S) : task.structureSignature hash =
    (directoryItem hash (task.directoryValue.getD .invalid) ::
      task.childResults.flatMap (structureItems hash)).foldl hash.hashCombine (hash.hashValue task.path) := by
  rw [foldl_cons, foldl_flatMap, structureSignature]
  refine congrArg₂ (fun step code => task.childResults.foldl step code) (funext₂ fun code info => ?_) ?_
  · rw [combineSignature_eq]
    show _ = hash.hashCombine (hash.hashCombine _ (modeItem hash (info.value.getD .invalid))) _
    cases info.value.getD .invalid <;> rfl
  · cases task.directoryValue.getD .invalid <;> rfl

end

/-- The child at the same place in the other state. -/
theorem exists_paired {g : SubpathInfo S → β} (hnames : l.map SubpathInfo.filename = l'.map SubpathInfo.filename)
    (hg : l.map g = l'.map g) {c : SubpathInfo S} (hc : c ∈ l) : ∃ c' ∈ l', c'.filename = c.filename ∧ g c' = g c := by
  obtain ⟨i, hi, rfl⟩ := mem_iff_getElem.mp hc
  have hi' : i < l'.length := by
    have hlength := congrArg List.length hnames
    rw [length_map, length_map] at hlength
    exact hlength ▸ hi
  refine ⟨l'[i], getElem_mem hi', ?_, ?_⟩
  · have h := congrArg (fun names => names[i]?) hnames
    simpa [hi, hi'] using h.symm
  · have h := congrArg (fun items => items[i]?) hg
    simpa [hi, hi'] using h.symm

/-- The value that a signature task was given for a listed name. -/
theorem slot_value (hinputs : InputsOnly env path)
    (hanswered : Answered kind path filters (Evaluates (tasks env fs)) dv task) {child : SubpathInfo S}
    (hchild : child ∈ task.childResults) :
    child.filename ∈ listed env fs filters path ∧
      SlotAnswered kind path filters (Evaluates (tasks env fs)) child
        (if (env.lookupNode (FileSystem.append path child.filename)).isVirtual then .virtualInput
          else .existingInput (fs.getFileInfo (FileSystem.append path child.filename))) := by
  have hlist := filenames_eq_listed (contents_of_evaluates hinputs.producers hanswered.contents) hanswered.filenames
  have hmem : child.filename ∈ listed env fs filters path := hlist ▸ mem_map_of_mem hchild
  have hproper := proper_of_mem_listed hmem
  obtain ⟨w, hslot⟩ := hanswered.slot child hchild
  have hw := eq_inputValue_of_evaluates (hinputs.child hproper).producers
    (getLast?_append_ne_slash path hproper) hslot.node
  rw [inputValue_of_mem (mem_listed.mp hmem).1] at hw
  exact ⟨hmem, hw ▸ hslot⟩

section

variable (hhash : env.hash.Ideal)
include hhash

/-- Children whose items agree. -/
theorem childrenAgree_of_paired
    (hobserve : ∀ info info', observe info = observe info' → info.isDirectory = info'.isDirectory)
    (hinputs : InputsOnly env path) {dv' : Value S}
    (hanswered : Answered kind path filters (Evaluates (tasks env fs)) dv task)
    (hanswered' : Answered kind path filters (Evaluates (tasks env fs')) dv' task')
    (hnames : task.childResults.map SubpathInfo.filename = task'.childResults.map SubpathInfo.filename)
    (hpaired : ∀ c ∈ task.childResults, ∃ c' ∈ task'.childResults, c'.filename = c.filename ∧
      signatureItem env.hash c'.directorySignatureValue = signatureItem env.hash c.directorySignatureValue ∧
        ∀ info info', c.value = some (.existingInput info) → c'.value = some (.existingInput info') →
          observe info = observe info') :
    ChildrenAgree observe env kind filters fs fs' path := by
  have hlist := filenames_eq_listed (contents_of_evaluates hinputs.producers hanswered.contents) hanswered.filenames
  have hlist' :=
    filenames_eq_listed (contents_of_evaluates hinputs.producers hanswered'.contents) hanswered'.filenames
  -- a listed name that is not virtual has a slot in both states
  have hslots : ∀ x ∈ listed env fs filters path,
      (env.lookupNode (append path x)).isVirtual = false →
        ∃ c c', c.filename = x ∧ c'.filename = x ∧
          SlotAnswered kind path filters (Evaluates (tasks env fs)) c
            (.existingInput (fs.getFileInfo (append path x))) ∧
          SlotAnswered kind path filters (Evaluates (tasks env fs')) c'
            (.existingInput (fs'.getFileInfo (append path x))) ∧
          signatureItem env.hash c'.directorySignatureValue = signatureItem env.hash c.directorySignatureValue ∧
          observe (fs.getFileInfo (append path x)) =
            observe (fs'.getFileInfo (append path x)) := by
    intro x hx hvirtual
    rw [← hlist] at hx
    obtain ⟨c, hc, rfl⟩ := mem_map.mp hx
    obtain ⟨c', hc', hname, hitem, hvalue⟩ := hpaired c hc
    obtain ⟨-, hslot⟩ := slot_value hinputs hanswered hc
    obtain ⟨-, hslot'⟩ := slot_value hinputs hanswered' hc'
    rw [hname] at hslot'
    rw [hvirtual] at hslot hslot'
    exact ⟨c, c', rfl, hname, hslot, hslot', hitem, hvalue _ _ hslot.value hslot'.value⟩
  refine ⟨by rw [← hlist, ← hlist', hnames], fun x hx hvirtual => ?_, fun x hx hvirtual hdirectory => ?_⟩
  · obtain ⟨c, c', -, -, -, -, -, hsame⟩ := hslots x hx hvirtual
    exact hsame
  · obtain ⟨c, c', hc, hc', hslot, hslot', hitem, hsame⟩ := hslots x hx hvirtual
    obtain ⟨s, hs, hevaluates⟩ := hslot.signature hdirectory
    have hdirectory' := (hobserve _ _ hsame).symm.trans hdirectory
    obtain ⟨s', hs', hevaluates'⟩ := hslot'.signature hdirectory'
    have heq : s' = s := by
      rw [hs, hs'] at hitem
      exact hhash.hashCombineRange_injective hitem
    rw [hc] at hevaluates
    rw [hc', heq] at hevaluates'
    exact ⟨s, hevaluates, hevaluates'⟩

/-- **Tree signatures, one level.** -/
theorem childrenAgree_tree (hinputs : InputsOnly env path)
    (hv : Evaluates (tasks env fs) (signatureKey .tree path filters) v)
    (hv' : Evaluates (tasks env fs') (signatureKey .tree path filters) v) :
    ChildrenAgree id env .tree filters fs fs' path := by
  obtain ⟨dv, task, hanswered, rfl⟩ := completes_signature (evaluates_iff.mp hv)
  obtain ⟨dv', task', hanswered', heq⟩ := completes_signature (evaluates_iff.mp hv')
  rw [SignatureTask.inputsAvailable, SignatureTask.inputsAvailable, hanswered.kind_eq, hanswered'.kind_eq] at heq
  simp only [Value.directoryTreeSignature.injEq, treeSignature_eq] at heq
  obtain ⟨-, hitems⟩ := hhash.lossless.foldl_eq_iff.mp heq
  rw [List.cons.injEq, hanswered.directoryValue, hanswered'.directoryValue] at hitems
  obtain rfl : dv = dv' := hhash.hashCombineRange_injective hitems.1
  have hg := Digest.map_eq_of_flatMap_eq (by decide : 0 < 2) (fun _ => rfl) hitems.2
  have hnames := Option.some.inj (hanswered.filenames.symm.trans hanswered'.filenames)
  refine childrenAgree_of_paired hhash (fun info info' h => congrArg _ h) hinputs hanswered hanswered' hnames
    fun c hc => ?_
  obtain ⟨c', hc', hname, hitem⟩ := exists_paired hnames hg hc
  rw [treeItems, treeItems, List.cons.injEq, List.cons.injEq] at hitem
  refine ⟨c', hc', hname, hitem.2.1, fun info info' hinfo hinfo' => ?_⟩
  rw [hinfo, hinfo'] at hitem
  have hvalue := hhash.hashCombineRange_injective hitem.1
  exact (Value.existingInput.inj hvalue).symm

theorem filenames_eq_of_structureItems
    (h : l.map (structureItems env.hash) = l'.map (structureItems env.hash)) :
    l.map SubpathInfo.filename = l'.map SubpathInfo.filename := by
  have hfirst : (l.map SubpathInfo.filename).map env.hash.hashValue =
      (l'.map SubpathInfo.filename).map env.hash.hashValue := by
    have hhead := congrArg (List.map fun items => items.head?) h
    simp only [map_map, Function.comp_def, structureItems, List.head?_cons] at hhead
    have hsome : ∀ l : List (SubpathInfo S), (l.map fun c => some (env.hash.hashValue c.filename)) =
        ((l.map SubpathInfo.filename).map env.hash.hashValue).map some := by
      intro l
      simp
    rw [hsome, hsome] at hhead
    exact map_injective_iff.mpr (Option.some_injective S) hhead
  exact map_injective_iff.mpr hhash.lossless.start_injective hfirst

/-- What equal structure signatures combine. -/
theorem structureItems_eq {dv' : Value S}
    (hanswered : Answered .treeStructure path filters (Evaluates (tasks env fs)) dv task)
    (hanswered' : Answered .treeStructure path filters (Evaluates (tasks env fs')) dv' task') :
    task.inputsAvailable env.hash = task'.inputsAvailable env.hash ↔
      directoryItem env.hash dv = directoryItem env.hash dv' ∧
        task.childResults.map (structureItems env.hash) = task'.childResults.map (structureItems env.hash) := by
  rw [SignatureTask.inputsAvailable, SignatureTask.inputsAvailable, hanswered.kind_eq, hanswered'.kind_eq]
  simp only [Value.directoryTreeStructureSignature.injEq, structureSignature_eq]
  rw [hhash.lossless.foldl_eq_iff, hanswered.path_eq, hanswered'.path_eq, List.cons.injEq, hanswered.directoryValue,
    hanswered'.directoryValue]
  constructor
  · rintro ⟨-, hdirectory, hitems⟩
    exact ⟨hdirectory, Digest.map_eq_of_flatMap_eq (by decide : 0 < 3) (fun _ => rfl) hitems⟩
  · rintro ⟨hdirectory, hitems⟩
    refine ⟨rfl, hdirectory, ?_⟩
    rw [flatMap_def, flatMap_def, hitems]

/-- **Structure signatures, one level.** -/
theorem childrenAgree_structure (hinputs : InputsOnly env path)
    (hv : Evaluates (tasks env fs) (signatureKey .treeStructure path filters) v)
    (hv' : Evaluates (tasks env fs') (signatureKey .treeStructure path filters) v) :
    ChildrenAgree FileInfo.mode env .treeStructure filters fs fs' path := by
  obtain ⟨dv, task, hanswered, rfl⟩ := completes_signature (evaluates_iff.mp hv)
  obtain ⟨dv', task', hanswered', heq⟩ := completes_signature (evaluates_iff.mp hv')
  obtain ⟨-, hg⟩ := (structureItems_eq hhash hanswered hanswered').mp heq
  have hnames := filenames_eq_of_structureItems hhash hg
  refine childrenAgree_of_paired hhash (fun info info' h => by rw [FileInfo.isDirectory, FileInfo.isDirectory, h])
    hinputs hanswered hanswered' hnames fun c hc => ?_
  obtain ⟨c', hc', hname, hitem⟩ := exists_paired hnames hg hc
  simp only [structureItems, List.cons.injEq] at hitem
  refine ⟨c', hc', hname, hitem.2.2.1, fun info info' hinfo hinfo' => ?_⟩
  rw [hinfo, hinfo'] at hitem
  exact (hhash.number_injective hitem.2.1).symm

end

/-! ## From entries to values -/

theorem isMissing_of_isDirectory {info : FileInfo} (h : info.isDirectory = true) : info.isMissing = false := by
  cases hmissing : info.isMissing with
  | false => rfl
  | true =>
    simp only [FileInfo.isMissing, Bool.and_eq_true, decide_eq_true_eq] at hmissing
    simp [FileInfo.isDirectory, hmissing.1.1.1.2] at h

section

variable (h : view observe env fs path = view observe env fs' path)
include h

theorem isMissing_eq_of_view :
    (fs.getFileInfo path).isMissing = (fs'.getFileInfo path).isMissing := by
  unfold view at h
  cases hmissing : (fs.getFileInfo path).isMissing <;> cases hmissing' : (fs'.getFileInfo path).isMissing <;>
    simp [hmissing, hmissing'] at h ⊢

theorem observe_eq_of_view
    (hmissing : (fs.getFileInfo path).isMissing = false) (hvirtual : (env.lookupNode path).isVirtual = false) :
    observe (fs.getFileInfo path) = observe (fs'.getFileInfo path) := by
  have hmissing' := (isMissing_eq_of_view h).symm.trans hmissing
  simpa [view, hmissing, hmissing', hvirtual] using h

end

/-- A listing is sorted, so its names determine it. -/
theorem listed_eq_of_mem_iff (h : ∀ x, x ∈ listed env fs filters path ↔ x ∈ listed env fs' filters path) :
    listed env fs filters path = listed env fs' filters path := by
  have hshape : ∀ fs : FileSystem, (listed env fs filters path).Nodup ∧
      (listed env fs filters path).Pairwise (fun a b => decide (a ≤ b) = true) := by
    intro fs
    have hsorted : ∀ l : List Name, (l.mergeSort fun a b => decide (a ≤ b)).Pairwise
        (fun a b => decide (a ≤ b) = true) := by
      intro l
      apply pairwise_mergeSort
      · intro a b c hab hbc
        simp only [decide_eq_true_eq] at hab hbc ⊢
        exact List.le_trans hab hbc
      · intro a b
        simpa using List.le_total a b
    unfold listed
    split
    · exact ⟨(mergeSort_perm _ _).nodup_iff.mpr (nodup_directoryIterator path), hsorted _⟩
    · exact ⟨(mergeSort_perm _ _).nodup_iff.mpr ((nodup_directoryIterator path).filter _), hsorted _⟩
  have hperm := (perm_ext_iff_of_nodup (hshape fs).1 (hshape fs').1).mpr h
  refine hperm.eq_of_pairwise (fun a b _ _ hab hba => ?_) (hshape fs).2 (hshape fs').2
  simp only [decide_eq_true_eq] at hab hba
  exact List.le_antisymm hab hba

theorem SameEntries.child (h : SameEntries observe env filters fs fs' path) (hx : FileSystem.ProperName x)
    (hexcluded : excluded env filters x = false)
    (hvirtual : (env.lookupNode (FileSystem.append path x)).isVirtual = false) :
    SameEntries observe env filters fs fs' (FileSystem.append path x) :=
  fun rel _ htracked => h (x :: rel) (by simp) ⟨hx, hexcluded, fun _ => hvirtual, htracked⟩

theorem SameEntries.view_eq (h : SameEntries observe env filters fs fs' path) (hx : FileSystem.ProperName x)
    (hexcluded : excluded env filters x = false) :
    view observe env fs (FileSystem.append path x) = view observe env fs' (FileSystem.append path x) :=
  h [x] (by simp) ⟨hx, hexcluded, fun hne => absurd rfl hne, trivial⟩

theorem SameEntries.listed_eq (hpath : path ≠ []) (h : SameEntries observe env filters fs fs' path) :
    listed env fs filters path = listed env fs' filters path := by
  refine listed_eq_of_mem_iff fun x => ?_
  rw [mem_listed, mem_listed]
  refine and_congr_left fun hexcluded => ?_
  constructor
  · intro hmem
    have hx := proper_of_mem hmem
    rw [mem_directoryIterator_iff hpath hx] at hmem ⊢
    rw [← isMissing_eq_of_view (h.view_eq hx hexcluded), hmem]
  · intro hmem
    have hx := proper_of_mem hmem
    rw [mem_directoryIterator_iff hpath hx] at hmem ⊢
    rw [isMissing_eq_of_view (h.view_eq hx hexcluded), hmem]

theorem map_eq_map_of_names {g : SubpathInfo S → β}
    (hnames : l.map SubpathInfo.filename = l'.map SubpathInfo.filename)
    (h : ∀ c ∈ l, ∀ c' ∈ l', c'.filename = c.filename → g c = g c') : l.map g = l'.map g := by
  induction l generalizing l' with
  | nil =>
    cases l' with
    | nil => rfl
    | cons c' l' => simp at hnames
  | cons c l ih =>
    cases l' with
    | nil => simp at hnames
    | cons c' l' =>
      rw [map_cons, map_cons, List.cons.injEq] at hnames
      rw [map_cons, map_cons, h c (by simp) c' (by simp) hnames.1.symm,
        ih hnames.2 fun d hd d' hd' => h d (by simp [hd]) d' (by simp [hd'])]

/-- What a structure signature combines for a directory. -/
theorem directoryItem_of_isDirectory (hcontents : Contents env fs path filters dv)
    (hdirectory : (fs.getFileInfo path).isDirectory = true) : directoryItem env.hash dv =
      if filters = [] then env.hash.number (fs.getFileInfo path).mode
      else env.hash.hashCombineRange (.filteredDirectoryContents (listed env fs filters path)) := by
  have hmissing := isMissing_of_isDirectory hdirectory
  cases hcontents with
  | missing _ h =>
    rw [hmissing] at h
    cases h
  | file _ _ h =>
    rw [hdirectory] at h
    cases h
  | contents hfilters =>
    rw [if_pos hfilters, ← getFileInfo_nodePath hmissing]
    rfl
  | filtered hfilters =>
    rw [if_neg hfilters]
    rfl

/-- **Equal structures have equal signatures.** -/
theorem structure_eq_of_sameEntries (hhash : env.hash.Ideal) (hpath : path ≠ []) (hinputs : InputsOnly env path)
    (hdirectory : (fs.getFileInfo path).isDirectory = true) (hdirectory' : (fs'.getFileInfo path).isDirectory = true)
    (hmode : filters = [] → (fs.getFileInfo path).mode = (fs'.getFileInfo path).mode)
    (hsame : SameEntries FileInfo.mode env filters fs fs' path)
    (hv : Evaluates (tasks env fs) (signatureKey .treeStructure path filters) v)
    (hv' : Evaluates (tasks env fs') (signatureKey .treeStructure path filters) v') : v = v' := by
  -- from the leaves of the tree up
  induction hn : fs.height path using Nat.strong_induction_on generalizing path v v' with
  | _ n ih =>
    obtain ⟨dv, task, hanswered, rfl⟩ := completes_signature (evaluates_iff.mp hv)
    obtain ⟨dv', task', hanswered', rfl⟩ := completes_signature (evaluates_iff.mp hv')
    have hcontents := contents_of_evaluates hinputs.producers hanswered.contents
    have hcontents' := contents_of_evaluates hinputs.producers hanswered'.contents
    have hlisted := hsame.listed_eq hpath
    rw [structureItems_eq hhash hanswered hanswered']
    constructor
    · rw [directoryItem_of_isDirectory hcontents hdirectory, directoryItem_of_isDirectory hcontents' hdirectory',
        hlisted]
      split
      · rename_i hfilters
        rw [hmode hfilters]
      · rfl
    · have hnames : task.childResults.map SubpathInfo.filename = task'.childResults.map SubpathInfo.filename := by
        rw [filenames_eq_listed hcontents hanswered.filenames, filenames_eq_listed hcontents' hanswered'.filenames,
          hlisted]
      refine map_eq_map_of_names hnames fun c hc c' hc' hname => ?_
      obtain ⟨hmem, hslot⟩ := slot_value hinputs hanswered hc
      obtain ⟨-, hslot'⟩ := slot_value hinputs hanswered' hc'
      rw [hname] at hslot'
      obtain ⟨hiterated, hexcluded⟩ := mem_listed.mp hmem
      have hx := proper_of_mem hiterated
      have hview := hsame.view_eq hx hexcluded
      cases hvirtual : (env.lookupNode (append path c.filename)).isVirtual with
      | true =>
        rw [hvirtual] at hslot hslot'
        rw [structureItems, structureItems, hname, hslot.value, hslot'.value, hslot.nothing rfl, hslot'.nothing rfl]
        rfl
      | false =>
        rw [hvirtual] at hslot hslot'
        have hchildMode := observe_eq_of_view hview (getFileInfo_append_of_mem hiterated) hvirtual
        have hsignature : signatureItem env.hash c.directorySignatureValue =
            signatureItem env.hash c'.directorySignatureValue := by
          have hdir' : (fs'.getFileInfo (append path c.filename)).isDirectory =
              (fs.getFileInfo (append path c.filename)).isDirectory := by
            rw [FileInfo.isDirectory, FileInfo.isDirectory, hchildMode]
          cases hdir : (fs.getFileInfo (append path c.filename)).isDirectory with
          | false => rw [hslot.nothing hdir, hslot'.nothing (hdir'.trans hdir)]
          | true =>
            obtain ⟨s, hs, hevaluates⟩ := hslot.signature hdir
            obtain ⟨s', hs', hevaluates'⟩ := hslot'.signature (hdir'.trans hdir)
            rw [hname] at hevaluates'
            have hlt : fs.height (append path c.filename) < n :=
              hn ▸ height_append_lt hiterated
            have heq := ih _ hlt (append_ne_nil path hx) (hinputs.child hx) hdir (hdir'.trans hdir)
              (fun _ => hchildMode) (hsame.child hx hexcluded hvirtual) hevaluates hevaluates' rfl
            rw [hs, hs', heq]
        rw [structureItems, structureItems, hname, hslot.value, hslot'.value, hsignature]
        show [_, env.hash.number (fs.getFileInfo (append path c.filename)).mode, _] = _
        rw [hchildMode]
        rfl

/-! ## Main result -/

/-- **What signatures determine.** For a path at and under which no node has a producer, and for any exclusion
    patterns: equal tree signatures mean the same entries with the same information, and the structure signatures
    of a directory are equal exactly if the entries have the same modes and, without exclusion patterns, the directory
    has too. -/
theorem signatures_determine_entries (hhash : env.hash.Ideal) (hpath : path ≠ []) (hinputs : InputsOnly env path) :
    (∀ v, Evaluates (tasks env fs) (.directoryTreeSignature path filters) v →
      Evaluates (tasks env fs') (.directoryTreeSignature path filters) v →
        SameEntries id env filters fs fs' path) ∧
    (∀ v v', (fs.getFileInfo path).isDirectory = true → (fs'.getFileInfo path).isDirectory = true →
      Evaluates (tasks env fs) (.directoryTreeStructureSignature path filters) v →
      Evaluates (tasks env fs') (.directoryTreeStructureSignature path filters) v' →
        (v = v' ↔ SameEntries FileInfo.mode env filters fs fs' path ∧
          (filters = [] → (fs.getFileInfo path).mode = (fs'.getFileInfo path).mode))) := by
  refine ⟨fun v hv hv' => ?_, fun v v' hdirectory hdirectory' hv hv' => ⟨?_, ?_⟩⟩
  · exact sameEntries_of_childrenAgree .tree (fun info info' h => congrArg _ h)
      (fun path v hinputs hv hv' => childrenAgree_tree hhash hinputs hv hv') hpath hinputs hv hv'
  · rintro rfl
    have hstructure : Evaluates (tasks env fs) (signatureKey .treeStructure path filters) v := hv
    have hstructure' : Evaluates (tasks env fs') (signatureKey .treeStructure path filters) v := hv'
    refine ⟨sameEntries_of_childrenAgree .treeStructure
      (fun info info' h => by rw [FileInfo.isDirectory, FileInfo.isDirectory, h])
      (fun path v hinputs hv hv' => childrenAgree_structure hhash hinputs hv hv') hpath hinputs hv hv',
      fun hfilters => ?_⟩
    obtain ⟨dv, task, hanswered, rfl⟩ := completes_signature (evaluates_iff.mp hstructure)
    obtain ⟨dv', task', hanswered', heq⟩ := completes_signature (evaluates_iff.mp hstructure')
    have hitem := ((structureItems_eq hhash hanswered hanswered').mp heq).1
    rw [directoryItem_of_isDirectory (contents_of_evaluates hinputs.producers hanswered.contents) hdirectory,
      directoryItem_of_isDirectory (contents_of_evaluates hinputs.producers hanswered'.contents) hdirectory',
      if_pos hfilters, if_pos hfilters] at hitem
    exact hhash.number_injective hitem
  · rintro ⟨hsame, hmode⟩
    exact structure_eq_of_sameEntries hhash hpath hinputs hdirectory hdirectory' hmode hsame hv hv'

/-! ## An ideal hash -/

/-- Hash codes that say how they were made. -/
inductive Code where
  | string (value : List UInt8)
  | range (value : Value Code)
  | number (value : UInt64)
  | combine (code item : Code)

def Code.hash : TreeHash Code := ⟨.string, .range, .number, .combine⟩

theorem Code.hash_ideal : Code.hash.Ideal where
  lossless := ⟨fun _ _ h => Code.string.inj h, fun h => Code.combine.inj h, fun _ _ _ h => by cases h⟩
  hashCombineRange_injective := fun _ _ h => Code.range.inj h
  number_injective := fun _ _ h => Code.number.inj h

/-- No nodes are declared. -/
def noDeclarations : Env Code := .ofNodes Code.hash (fun _ _ => false) fun _ => none

theorem noDeclarations_inputsOnly (path : Path) : InputsOnly noDeclarations path :=
  fun rel _ => createNode_producers (descend path rel)

theorem noDeclarations_unslashed : Unslashed noDeclarations :=
  fun name hname => ⟨createNode_producers name, createNode_type_ne hname⟩

/-- A directory `d` with a file `f` of the given size in it. -/
def directoryWithFile (size : UInt64) : FileSystem :=
  .ofEntries [([], ⟨{ inode := 1, mode := 0x41ed }, true, FileSystem.root_present, FileSystem.root_mode⟩),
    ([[100]], ⟨{ inode := 2, mode := 0x41ed }, true, rfl, fun _ => rfl⟩),
    ([[100], [102]], ⟨{ inode := 3, mode := 0x81a4, size := size }, false, rfl, fun h => (by cases h)⟩)] [] 2 rfl

/-- A file that has grown changes the signature of its directory. -/
theorem signatures_determine_size :
    (∃ v, Evaluates (tasks noDeclarations (directoryWithFile 0)) (.directoryTreeSignature [100] []) v) ∧
      ∀ v, Evaluates (tasks noDeclarations (directoryWithFile 0)) (.directoryTreeSignature [100] []) v →
        ¬Evaluates (tasks noDeclarations (directoryWithFile 1)) (.directoryTreeSignature [100] []) v := by
  refine ⟨?_, fun v hv hv' => ?_⟩
  · have hnode : Evaluates (tasks noDeclarations (directoryWithFile 0)) (.node [100])
        (inputValue noDeclarations (directoryWithFile 0) [100]) :=
      noDeclarations_unslashed.evaluates_node (by decide)
    exact exists_evaluates_signature .tree noDeclarations_unslashed (createNode_producers [100])
      (exists_contents_of_directory hnode rfl rfl .tree)
  · have hsame := (signatures_determine_entries Code.hash_ideal (by decide) (noDeclarations_inputsOnly [100])).1 v hv hv'
    have hview := hsame [[102]] (by decide) ⟨by decide, rfl, fun h => absurd rfl h, trivial⟩
    revert hview
    decide

/-- A directory `<x` with a file `y>` of the given size in it: the node of the file is named `<x/y>`. -/
def directoryWithVirtualName (size : UInt64) : FileSystem :=
  .ofEntries [([], ⟨{ inode := 1, mode := 0x41ed }, true, FileSystem.root_present, FileSystem.root_mode⟩),
    ([[60, 120]], ⟨{ inode := 2, mode := 0x41ed }, true, rfl, fun _ => rfl⟩),
    ([[60, 120], [121, 62]], ⟨{ inode := 3, mode := 0x81a4, size := size }, false, rfl, fun h => (by cases h)⟩)] [] 2
    rfl

/-- A file whose node is virtual can grow without changing the signature of its directory. -/
theorem signature_ignores_virtual_entry : Code.hash.Ideal ∧ InputsOnly noDeclarations [60, 120] ∧
    (∃ v, Evaluates (tasks noDeclarations (directoryWithVirtualName 0)) (.directoryTreeSignature [60, 120] []) v ∧
      Evaluates (tasks noDeclarations (directoryWithVirtualName 1)) (.directoryTreeSignature [60, 120] []) v) ∧
    (directoryWithVirtualName 0).getFileInfo (FileSystem.append [60, 120] [121, 62]) ≠
      (directoryWithVirtualName 1).getFileInfo (FileSystem.append [60, 120] [121, 62]) := by
  refine ⟨Code.hash_ideal, noDeclarations_inputsOnly _, ?_, by decide⟩
  -- whatever the file, its directory and the virtual node have the same values
  have hvalue : ∀ size, Evaluates (tasks noDeclarations (directoryWithVirtualName size))
      (.directoryTreeSignature [60, 120] []) (SignatureTask.inputsAvailable Code.hash
        { kind := .tree, path := [60, 120], filters := [],
          directoryValue := some (.directoryContents { inode := 2, mode := 0x41ed } [[121, 62]]),
          childResults := [{ filename := [121, 62], value := some .virtualInput }] }) := by
    intro size
    have hdirectory : Evaluates (tasks noDeclarations (directoryWithVirtualName size)) (.node [60, 120])
        (.existingInput { inode := 2, mode := 0x41ed }) :=
      noDeclarations_unslashed.evaluates_node (by decide)
    have hlist : getContents (directoryWithVirtualName size) [60, 120] = [[121, 62]] := by
      have hiterated : (directoryWithVirtualName size).directoryIterator [60, 120] = [[121, 62]] := by rfl
      rw [getContents, hiterated, mergeSort_singleton]
    have hcontents : Evaluates (tasks noDeclarations (directoryWithVirtualName size)) (.directoryContents [60, 120])
        (.directoryContents { inode := 2, mode := 0x41ed } [[121, 62]]) := by
      rw [← hlist]
      exact evaluates_iff.mpr (completes_directoryContents.mpr ⟨_, hdirectory, by rfl⟩)
    have hchild : Evaluates (tasks noDeclarations (directoryWithVirtualName size)) (.node [60, 120, 47, 121, 62])
        .virtualInput :=
      noDeclarations_unslashed.evaluates_node (by decide)
    have hrun : Run (tasks noDeclarations (directoryWithVirtualName size))
        (Evaluates (tasks noDeclarations (directoryWithVirtualName size))) (.directoryTreeSignature [60, 120] []) _
          ([] ++ (0, .directoryContents [60, 120]) :: []) := .start
    have hrun' : Run (tasks noDeclarations (directoryWithVirtualName size))
        (Evaluates (tasks noDeclarations (directoryWithVirtualName size))) (.directoryTreeSignature [60, 120] []) _
          ([] ++ (1, .node [60, 120, 47, 121, 62]) :: []) := hrun.provide hcontents (by rfl)
    exact evaluates_iff.mpr ⟨_, hrun'.provide hchild (by rfl), rfl⟩
  exact ⟨_, hvalue 0, hvalue 1⟩

end DirectoryTasks

end Builra
