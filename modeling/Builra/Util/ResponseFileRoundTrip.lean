import Builra.Util.ResponseFiles

namespace Builra.ResponseFiles

open List

open Character UNIXShellCommandCodec

/-!
# `Util.ResponseFileRoundTrip` — reading back what was written to a response file

The tokens that are read from what `responseFileContents` writes, without what the reader drops: line ends, and white
space that is not special to the writer.
-/

variable {arg f : List Character} {args : List (List Character)}

/-! ## What is written -/

/-- How a fragment is written to a response file. -/
def writeFragment (f : List Character) : List Character :=
  if f = [ofScalar '\''] then [ofScalar '\\', ofScalar '\'']
  else if f.any isSpecialShellCharacter then ofScalar '\'' :: f ++ [ofScalar '\'']
  else f

def writeArg (arg : List Character) : List Character := (fragment (ofScalar '\'') arg).flatMap writeFragment

theorem responseFileContents_eq (args : List (List Character)) :
    responseFileContents args = [ofScalar ' '].intercalate (args.map writeArg) := by
  have harg : ∀ argIndex arg, (new .singleQuotes .argumentsOnly).encodeArg argIndex arg = writeArg arg := by
    intro argIndex arg
    show (fragment (ofScalar '\'') arg).flatMap ((new .singleQuotes .argumentsOnly).encodeFragment argIndex) = _
    apply congrArg (fun g => (fragment (ofScalar '\'') arg).flatMap g)
    funext f
    unfold encodeFragment writeFragment needsShellKeywordEncoding
    simp [new]
  unfold responseFileContents encode
  have hmap : args.zipIdx.map (fun a => (new .singleQuotes .argumentsOnly).encodeArg a.2 a.1) = args.map writeArg := by
    have hfst : args.zipIdx.map Prod.fst = args := zipIdx_map_fst 0 args
    nth_rewrite 2 [← hfst]
    rw [map_map]
    exact map_congr_left (fun a _ => harg a.2 a.1)
  exact congrArg _ hmap

/-! ## The tokens of a line -/

/-- The characters that have been read. -/
def Tokenizing.collected (t : Tokenizing) : List Character := t.tokens.flatten ++ t.token

theorem Tokenizing.flatten_finish (t : Tokenizing) : t.finish.flatten = t.collected := by
  unfold Tokenizing.finish Tokenizing.collected
  split
  case isTrue hnil => rw [hnil, append_nil]
  case isFalse => simp

/-- The text leaves the tokenizer unquoted; the characters `rest` of it are read, and if it is solid, all of `value` are
appended to the token. -/
structure Adds (text rest value : List Character) (solid : Prop) : Prop where
  state : ∀ {t : Tokenizing}, t.state = .normal → (text.foldl Tokenizing.turn t).state = .normal
  collected : ∀ {t : Tokenizing}, t.state = .normal →
    (text.foldl Tokenizing.turn t).collected = t.collected ++ rest
  foldl : ∀ {t : Tokenizing}, t.state = .normal → solid →
    text.foldl Tokenizing.turn t = { t with token := t.token ++ value }

theorem Adds.append {text text' rest rest' value value' : List Character} {solid solid' : Prop}
    (h : Adds text rest value solid) (h' : Adds text' rest' value' solid') :
    Adds (text ++ text') (rest ++ rest') (value ++ value') (solid ∧ solid') where
  state := by
    intro t ht
    rw [foldl_append]
    exact h'.state (h.state ht)
  collected := by
    intro t ht
    rw [foldl_append, h'.collected (h.state ht), h.collected ht, append_assoc]
  foldl := by
    rintro t ht ⟨hsolid, hsolid'⟩
    rw [foldl_append, h'.foldl (h.state ht) hsolid', h.foldl ht hsolid]
    simp

/-- A text that appends all of `value` whatever is read. -/
theorem Adds.of_foldl {text value : List Character} (solid : Prop)
    (h : ∀ {t : Tokenizing}, t.state = .normal → text.foldl Tokenizing.turn t = { t with token := t.token ++ value }) :
    Adds text value value solid where
  state := by
    intro t ht
    rw [h ht]
    exact ht
  collected := by
    intro t ht
    rw [h ht]
    exact (append_assoc _ _ _).symm
  foldl := fun ht _ => h ht

/-- The reader drops white space of bare fragments. -/
def keptFragment (f : List Character) : List Character :=
  if f.any isSpecialShellCharacter then f else f.filter (fun k => !k.isWhitespace)

/-- No white space is bare. -/
def FragmentSolid (f : List Character) : Prop := IsBare f → ∀ k ∈ f, k.isWhitespace = false

/-- Between quotes, everything but a quote is appended. -/
theorem foldl_quoted (tokens : List (List Character)) (token f : List Character) (hf : ofScalar '\'' ∉ f) :
    f.foldl Tokenizing.turn { tokens, token, state := .quoted } =
      { tokens, token := token ++ f, state := .quoted } := by
  induction f generalizing token with
  | nil => rw [append_nil]; rfl
  | cons c f ih =>
    have hc : c ≠ ofScalar '\'' := fun hc => hf (hc ▸ mem_cons_self)
    have hturn : Tokenizing.turn { tokens, token, state := .quoted } c =
        { tokens, token := token ++ [c], state := .quoted } := by
      unfold Tokenizing.turn
      simp [hc]
    rw [foldl_cons, hturn, ih (token ++ [c]) (fun hmem => hf (mem_cons_of_mem c hmem)), append_assoc]
    rfl

theorem adds_quoted (hf : ofScalar '\'' ∉ f) (solid : Prop) :
    Adds (ofScalar '\'' :: f ++ [ofScalar '\'']) f f solid := by
  apply Adds.of_foldl
  intro t ht
  have hopen : t.turn (ofScalar '\'') = { t with state := .quoted } := by
    unfold Tokenizing.turn
    rw [if_neg (by rintro ⟨h, -⟩; exact absurd h (by decide)), if_neg (by rw [ht]; decide), if_pos rfl, ht]
    rfl
  have hclose : ∀ token, Tokenizing.turn { t with token := token, state := .quoted } (ofScalar '\'') =
      { t with token := token } := by
    intro token
    unfold Tokenizing.turn
    rw [if_neg (by rintro ⟨h, -⟩; exact absurd h (by decide)), if_neg (by simp), if_pos rfl]
    simp [ht]
  rw [cons_append, foldl_cons, hopen, foldl_append, foldl_quoted t.tokens t.token f hf]
  exact hclose (t.token ++ f)

/-- White space of a bare fragment ends tokens. -/
theorem adds_bare (hf : IsBare f) :
    Adds f (f.filter (fun k => !k.isWhitespace)) f (∀ k ∈ f, k.isWhitespace = false) := by
  induction f with
  | nil => exact Adds.of_foldl _ (fun _ => by simp)
  | cons c f ih =>
    have hc : isSpecialShellCharacter c = false := hf c mem_cons_self
    have hbackslash : c ≠ ofScalar '\\' := by
      rintro rfl
      exact absurd hc (by decide)
    have hquote : c ≠ ofScalar '\'' := by
      rintro rfl
      exact absurd hc (by decide)
    have hhead : Adds [c] ([c].filter (fun k => !k.isWhitespace)) [c] (c.isWhitespace = false) := by
      have hturn : ∀ {t : Tokenizing}, t.state = .normal → t.turn c =
          if c.isWhitespace then
            if t.token = [] then t else { t with tokens := t.tokens ++ [t.token], token := [] }
          else { t with token := t.token ++ [c] } := by
        intro t ht
        unfold Tokenizing.turn
        rw [if_neg (fun h => hbackslash h.1), if_neg (by rw [ht]; decide), if_neg hquote]
        simp only [ht, and_true]
      cases hspace : c.isWhitespace with
      | false =>
        simp only [hspace, Bool.false_eq_true, if_false] at hturn
        rw [filter_cons_of_pos (by rw [hspace]; rfl), filter_nil]
        exact Adds.of_foldl _ (fun ht => hturn ht)
      | true =>
        simp only [hspace, if_true] at hturn
        rw [filter_cons_of_neg (by rw [hspace]; decide), filter_nil]
        refine ⟨?_, ?_, fun _ h => absurd h (by decide)⟩
        · intro t ht
          rw [foldl_cons, foldl_nil, hturn ht]
          split
          · exact ht
          · exact ht
        · intro t ht
          rw [foldl_cons, foldl_nil, hturn ht, append_nil]
          split
          · rfl
          · simp [Tokenizing.collected]
    have happend := hhead.append (ih (fun k hk => hf k (mem_cons_of_mem c hk)))
    rw [← filter_append] at happend
    rw [forall_mem_cons]
    exact happend

theorem adds_fragment (hf : f = [ofScalar '\''] ∨ ofScalar '\'' ∉ f) :
    Adds (writeFragment f) (keptFragment f) f (FragmentSolid f) := by
  unfold writeFragment keptFragment
  by_cases hquote : f = [ofScalar '\'']
  · subst hquote
    rw [if_pos rfl, if_pos (by decide)]
    apply Adds.of_foldl
    intro t ht
    have hescape : t.turn (ofScalar '\\') = { t with state := .escaping } := by
      unfold Tokenizing.turn
      rw [if_pos ⟨rfl, ht⟩]
    have hturn : Tokenizing.turn { t with state := .escaping } (ofScalar '\'') =
        { t with token := t.token ++ [ofScalar '\''] } := by
      unfold Tokenizing.turn
      rw [if_neg (by rintro ⟨h, -⟩; exact absurd h (by decide)), if_pos rfl, ht]
    rw [foldl_cons, hescape]
    exact hturn
  · have hf := hf.resolve_left hquote
    rw [if_neg hquote]
    cases hspecial : f.any isSpecialShellCharacter with
    | true =>
      rw [if_pos rfl, if_pos rfl]
      exact adds_quoted hf _
    | false =>
      have hbare : IsBare f := by simpa [IsBare] using hspecial
      have hsolid : FragmentSolid f ↔ ∀ k ∈ f, k.isWhitespace = false :=
        ⟨fun h => h hbare, fun h _ => h⟩
      rw [if_neg (by decide), if_neg (by decide), hsolid]
      exact adds_bare hbare

/-! ## The tokens of arguments -/

def kept (arg : List Character) : List Character := (fragment (ofScalar '\'') arg).flatMap keptFragment

/-- No white space is bare. -/
def Solid (arg : List Character) : Prop := ∀ f ∈ fragment (ofScalar '\'') arg, FragmentSolid f

theorem adds_arg (arg : List Character) : Adds (writeArg arg) (kept arg) arg (Solid arg) := by
  have hall : ∀ {fs : List (List Character)}, (∀ f ∈ fs, f = [ofScalar '\''] ∨ ofScalar '\'' ∉ f) →
      Adds (fs.flatMap writeFragment) (fs.flatMap keptFragment) fs.flatten (∀ f ∈ fs, FragmentSolid f) := by
    intro fs hfs
    induction fs with
    | nil => exact Adds.of_foldl _ (fun _ => by simp)
    | cons f fs ih =>
      rw [forall_mem_cons]
      exact (adds_fragment (hfs f mem_cons_self)).append (ih (fun g hg => hfs g (mem_cons_of_mem f hg)))
  have hadds := hall (fun f (hf : f ∈ fragment (ofScalar '\'') arg) => (mem_fragment hf).2)
  rwa [flatten_fragment] at hadds

/-- The tokens are those before and the arguments, without white space that is bare. -/
theorem finish_foldl (args tokens : List (List Character)) :
    (([ofScalar ' '].intercalate (args.map writeArg)).foldl Tokenizing.turn { tokens }).finish.flatten =
        tokens.flatten ++ args.flatMap kept ∧
      ((∀ arg ∈ args, arg ≠ [] ∧ Solid arg) →
        (([ofScalar ' '].intercalate (args.map writeArg)).foldl Tokenizing.turn { tokens }).finish =
          tokens ++ args) := by
  have hspace : ∀ {t : Tokenizing}, t.state = .normal → t.turn (ofScalar ' ') = { tokens := t.finish } := by
    intro t ht
    unfold Tokenizing.turn Tokenizing.finish
    rw [if_neg (by rintro ⟨h, -⟩; exact absurd h (by decide)), if_neg (by rw [ht]; decide), if_neg (by decide),
      if_pos ⟨by decide, ht⟩]
    obtain ⟨ts, token, state⟩ := t
    obtain rfl : state = .normal := ht
    split
    case isTrue hnil =>
      obtain rfl : token = [] := hnil
      rfl
    case isFalse => rfl
  have hone : ∀ arg tokens,
      ((writeArg arg).foldl Tokenizing.turn { tokens }).finish.flatten = tokens.flatten ++ kept arg ∧
      (arg ≠ [] ∧ Solid arg → ((writeArg arg).foldl Tokenizing.turn { tokens }).finish = tokens ++ [arg]) := by
    intro arg tokens
    refine ⟨?_, ?_⟩
    · rw [Tokenizing.flatten_finish, (adds_arg arg).collected rfl]
      simp [Tokenizing.collected]
    · rintro ⟨hne, hsolid⟩
      rw [(adds_arg arg).foldl rfl hsolid]
      exact if_neg hne
  induction args generalizing tokens with
  | nil =>
    have hfinish : ((([ofScalar ' ']).intercalate (List.map writeArg [])).foldl Tokenizing.turn { tokens }).finish =
      tokens := rfl
    rw [hfinish]
    simp
  | cons arg args ih =>
    obtain ⟨hflatten, hsolid⟩ := hone arg tokens
    cases args with
    | nil =>
      rw [map_singleton, intercalate_singleton, hflatten]
      refine ⟨by simp, fun h => hsolid (h arg mem_cons_self)⟩
    | cons next args =>
      have htext : ([ofScalar ' '].intercalate ((arg :: next :: args).map writeArg)).foldl Tokenizing.turn { tokens } =
          ([ofScalar ' '].intercalate ((next :: args).map writeArg)).foldl Tokenizing.turn
            { tokens := ((writeArg arg).foldl Tokenizing.turn { tokens }).finish } := by
        rw [map_cons, map_cons, intercalate_cons_cons, append_assoc, foldl_append,
          singleton_append, foldl_cons, hspace ((adds_arg arg).state rfl)]
      obtain ⟨ihflatten, ihsolid⟩ := ih ((writeArg arg).foldl Tokenizing.turn { tokens }).finish
      rw [htext]
      refine ⟨?_, ?_⟩
      · rw [ihflatten, hflatten, append_assoc]
        rfl
      · intro h
        rw [ihsolid (fun a ha => h a (mem_cons_of_mem arg ha)), hsolid (h arg mem_cons_self),
          append_assoc]
        rfl

/-- Where nothing is dropped in total, nothing is dropped anywhere. -/
theorem length_eq_of_flatMap {α β : Type} {g h : α → List β} {l : List α} (hle : ∀ a ∈ l, (g a).length ≤ (h a).length)
    (heq : (l.flatMap g).length = (l.flatMap h).length) : ∀ a ∈ l, (g a).length = (h a).length := by
  have htotal : ∀ {l : List α}, (∀ a ∈ l, (g a).length ≤ (h a).length) →
      (l.flatMap g).length ≤ (l.flatMap h).length := by
    intro l hle
    induction l with
    | nil => exact Nat.le_refl 0
    | cons a l ih =>
      have hhead := hle a mem_cons_self
      have htail := ih (fun b hb => hle b (mem_cons_of_mem a hb))
      simp only [flatMap_cons, length_append]
      omega
  induction l with
  | nil => simp
  | cons a l ih =>
    have hhead := hle a mem_cons_self
    have hle := fun b hb => hle b (mem_cons_of_mem a hb)
    have htail := htotal hle
    simp only [flatMap_cons, length_append] at heq
    rw [forall_mem_cons]
    exact ⟨by omega, ih hle (by omega)⟩

theorem length_keptFragment_le (f : List Character) : (keptFragment f).length ≤ f.length := by
  unfold keptFragment
  split
  · exact Nat.le_refl _
  · exact length_filter_le _ _

theorem length_kept_le (arg : List Character) : (kept arg).length ≤ arg.length := by
  have hsum : ∀ fs : List (List Character), (fs.flatMap keptFragment).length ≤ fs.flatten.length := by
    intro fs
    induction fs with
    | nil => exact Nat.le_refl 0
    | cons f fs ih =>
      have hf := length_keptFragment_le f
      simp only [flatMap_cons, flatten_cons, length_append]
      omega
  have hkept := hsum (fragment (ofScalar '\'') arg)
  rwa [flatten_fragment] at hkept

theorem solid_of_length_kept (h : (kept arg).length = arg.length) : Solid arg := by
  intro f hf hbare
  have hflatten : (fragment (ofScalar '\'') arg).flatMap (fun f => f) = arg := by
    rw [flatMap_id']
    exact flatten_fragment _ _
  have hlength : (keptFragment f).length = f.length := by
    apply length_eq_of_flatMap (fun f _ => length_keptFragment_le f) _ f hf
    rw [hflatten]
    exact h
  have hspecial : f.any isSpecialShellCharacter = false := by simpa [IsBare] using hbare
  rw [keptFragment, hspecial, if_neg (by decide)] at hlength
  have hall := length_filter_eq_length_iff.mp hlength
  intro k hk
  simpa using hall k hk

/-! ## The tokens of a file -/

theorem mem_splitOnP {p : Character → Bool} {content line : List Character} (h : line ∈ content.splitOnP p) :
    ∀ c ∈ line, p c = false := by
  induction content generalizing line with
  | nil =>
    rw [splitOnP_nil, mem_singleton] at h
    rw [h]
    simp
  | cons c content ih =>
    rw [splitOnP_cons_eq_if_modifyHead] at h
    split at h
    case isTrue =>
      rcases mem_cons.mp h with rfl | h
      · simp
      · exact ih h
    case isFalse hc =>
      obtain ⟨first, lines, hlines⟩ := exists_cons_of_ne_nil (splitOnP_ne_nil p content)
      rw [hlines, modifyHead_cons, mem_cons] at h
      rcases h with rfl | h
      · rw [forall_mem_cons]
        exact ⟨(Bool.not_eq_true _).mp hc, ih (by rw [hlines]; exact mem_cons_self)⟩
      · exact ih (by rw [hlines]; exact mem_cons_of_mem _ h)

/-- No token is empty, and the tokens have no characters but those of the line. -/
theorem mem_finish_foldl {line : List Character} (hline : ∀ c ∈ line, isLineEnd c = false) {t : Tokenizing}
    (htokens : ∀ token ∈ t.tokens, token ≠ [] ∧ ∀ c ∈ token, isLineEnd c = false)
    (ht : ∀ c ∈ t.token, isLineEnd c = false) :
    ∀ token ∈ (line.foldl Tokenizing.turn t).finish, token ≠ [] ∧ ∀ c ∈ token, isLineEnd c = false := by
  induction line generalizing t with
  | nil =>
    intro token hmem
    rw [foldl_nil, Tokenizing.finish] at hmem
    split at hmem
    · exact htokens token hmem
    · rcases mem_append.mp hmem with hmem | hmem
      · exact htokens token hmem
      · obtain rfl := mem_singleton.mp hmem
        exact ⟨by assumption, ht⟩
  | cons c line ih =>
    obtain ⟨hc, hline⟩ := forall_mem_cons.mp hline
    have hpush : ∀ d ∈ t.token ++ [c], isLineEnd d = false := by
      rw [forall_mem_append]
      exact ⟨ht, by simpa using hc⟩
    rw [foldl_cons]
    unfold Tokenizing.turn
    split_ifs with _ _ _ _ _ hnil
    · exact ih hline htokens ht
    · exact ih hline htokens hpush
    · exact ih hline htokens ht
    · exact ih hline htokens ht
    · exact ih hline htokens ht
    · refine ih hline ?_ (by simp)
      rw [forall_mem_append]
      exact ⟨htokens, by simpa using ⟨hnil, ht⟩⟩
    · exact ih hline htokens hpush

/-- No token is empty or contains a line end. -/
theorem mem_tokenizeResponseFile {content token : List Character} (h : token ∈ tokenizeResponseFile content) :
    token ≠ [] ∧ ∀ c ∈ token, isLineEnd c = false := by
  obtain ⟨line, hline, htoken⟩ := mem_flatMap.mp h
  unfold tokenizeResponseFileLine at htoken
  split at htoken
  · exact absurd htoken (by simp)
  · exact mem_finish_foldl (mem_splitOnP (mem_filter.mp hline).1) (by simp) (by simp) token htoken

theorem mem_intercalate {c k : Character} {l : List (List Character)} (h : c ∈ [k].intercalate l) :
    c = k ∨ ∃ a ∈ l, c ∈ a := by
  induction l with
  | nil => exact absurd h (by simp)
  | cons a l ih =>
    cases l with
    | nil => exact .inr ⟨a, mem_singleton_self a, by simpa using h⟩
    | cons b l =>
      rw [intercalate_cons_cons, append_assoc, mem_append, singleton_append, mem_cons] at h
      rcases h with h | h | h
      · exact .inr ⟨a, mem_cons_self, h⟩
      · exact .inl h
      · rcases ih h with h | ⟨b, hb, h⟩
        · exact .inl h
        · exact .inr ⟨b, mem_cons_of_mem a hb, h⟩

/-- Nothing that is written is a line end, unless an argument contains it. -/
theorem isLineEnd_responseFileContents (h : ∀ arg ∈ args, ∀ c ∈ arg, isLineEnd c = false) :
    ∀ c ∈ responseFileContents args, isLineEnd c = false := by
  intro c hc
  rw [responseFileContents_eq] at hc
  rcases mem_intercalate hc with rfl | ⟨text, htext, hc⟩
  · decide
  obtain ⟨arg, harg, rfl⟩ := mem_map.mp htext
  obtain ⟨f, hf, hc⟩ := mem_flatMap.mp hc
  have hfragment : ∀ d ∈ f, isLineEnd d = false := by
    intro d hd
    apply h arg harg
    rw [← flatten_fragment (ofScalar '\'') arg]
    exact mem_flatten_of_mem hf hd
  unfold writeFragment at hc
  split_ifs at hc with hquote hspecial
  · have hall : ∀ d ∈ [ofScalar '\\', ofScalar '\''], isLineEnd d = false := by decide
    exact hall c hc
  · rw [mem_append, mem_cons, mem_singleton] at hc
    rcases hc with (rfl | hc) | rfl
    · decide
    · exact hfragment c hc
    · decide
  · exact hfragment c hc

/-- Without line ends and without a comment, the tokens are those of the one line. -/
theorem tokenizeResponseFile_line {content : List Character} (h : ∀ c ∈ content, isLineEnd c = false) :
    tokenizeResponseFile content =
      if ofLiteral "//" <+: content then [] else (content.foldl Tokenizing.turn {}).finish := by
  unfold tokenizeResponseFile
  rw [splitOnP_eq_singleton h]
  by_cases hnil : content = []
  · subst hnil
    rfl
  · rw [filter_cons_of_pos (by simpa using hnil), filter_nil, flatMap_singleton]
    rfl

/-! ## Comments -/

/-- The arguments begin like a comment, written bare. -/
def BeginsComment (args : List (List Character)) : Prop :=
  ∃ arg ∈ args.head?, ∃ f ∈ (fragment (ofScalar '\'') arg).head?, IsBare f ∧ ofLiteral "//" <+: f

theorem comment_append_iff {f v : List Character} (hv : ∀ c ∈ v.head?, c ≠ ofScalar '/') :
    ofLiteral "//" <+: f ++ v ↔ ofLiteral "//" <+: f := by
  have hliteral : ofLiteral "//" = [ofScalar '/', ofScalar '/'] := by decide
  rw [hliteral]
  rcases f with _ | ⟨x, _ | ⟨y, f⟩⟩
  · refine iff_of_false ?_ (by simp)
    rintro ⟨u, rfl⟩
    exact hv (ofScalar '/') rfl rfl
  · refine iff_of_false ?_ (by simp)
    rintro ⟨u, hu⟩
    obtain ⟨-, rfl⟩ := List.cons.inj hu
    exact hv (ofScalar '/') rfl rfl
  · simp

theorem not_comment_cons {c : Character} (hc : c ≠ ofScalar '/') (v : List Character) :
    ¬ ofLiteral "//" <+: c :: v := by
  rintro ⟨u, hu⟩
  exact hc (List.cons.inj hu).1.symm

/-- What is written begins like a comment exactly if the arguments do. -/
theorem comment_iff (h : ∀ arg ∈ args, arg ≠ []) :
    ofLiteral "//" <+: responseFileContents args ↔ BeginsComment args := by
  rw [responseFileContents_eq]
  cases args with
  | nil =>
    refine iff_of_false ?_ (by simp [BeginsComment])
    rintro ⟨u, hu⟩
    exact absurd hu (by simp [ofLiteral])
  | cons arg args =>
    obtain ⟨u, htext, hu⟩ : ∃ u, [ofScalar ' '].intercalate ((arg :: args).map writeArg) = writeArg arg ++ u ∧
        ∀ c ∈ u.head?, c = ofScalar ' ' := by
      cases args with
      | nil =>
        refine ⟨[], ?_, by simp⟩
        rw [map_singleton, intercalate_singleton, append_nil]
      | cons next args =>
        refine ⟨ofScalar ' ' :: [ofScalar ' '].intercalate ((next :: args).map writeArg), ?_, ?_⟩
        · rw [map_cons, map_cons, intercalate_cons_cons, append_assoc]
          rfl
        · exact fun c hc => (Option.some.inj hc).symm
    rw [htext]
    -- the first fragment, and what follows it
    obtain ⟨f, v, hf, hwritten, hv⟩ : ∃ f v, f ∈ (fragment (ofScalar '\'') arg).head? ∧
        writeArg arg ++ u = writeFragment f ++ v ∧ (IsBare f → ∀ c ∈ v.head?, c ≠ ofScalar '/') := by
      have harg := h arg mem_cons_self
      by_cases hmem : ofScalar '\'' ∈ arg
      · obtain ⟨f, rest, rfl, hf⟩ := eq_append_cons_of_mem hmem
        have hwriteArg : writeArg (f ++ ofScalar '\'' :: rest) =
            (if f = [] then [] else writeFragment f) ++ ofScalar '\\' :: ofScalar '\'' :: writeArg rest := by
          unfold writeArg
          rw [fragment_append hf, flatMap_append, flatMap_cons]
          split
          · rfl
          · rw [flatMap_singleton]
            rfl
        rw [hwriteArg, fragment_append hf]
        by_cases hnil : f = []
        · rw [if_pos hnil, if_pos hnil]
          refine ⟨[ofScalar '\''], writeArg rest ++ u, rfl, rfl, fun hbare => ?_⟩
          exact absurd (hbare _ mem_cons_self) (by decide)
        · rw [if_neg hnil, if_neg hnil]
          refine ⟨f, ofScalar '\\' :: ofScalar '\'' :: writeArg rest ++ u, rfl, append_assoc _ _ _, ?_⟩
          rintro - c hc
          cases hc
          decide
      · have hwriteArg : writeArg arg = writeFragment arg := by
          unfold writeArg
          rw [fragment_of_notMem hmem, if_neg harg, flatMap_singleton]
        rw [hwriteArg, fragment_of_notMem hmem, if_neg harg]
        refine ⟨arg, u, rfl, rfl, ?_⟩
        rintro - c hc
        rw [hu c hc]
        decide
    have hbegins : BeginsComment (arg :: args) ↔ IsBare f ∧ ofLiteral "//" <+: f := by
      have hfirst : (fragment (ofScalar '\'') arg).head? = some f := hf
      simp [BeginsComment, hfirst]
    rw [hwritten, hbegins]
    unfold writeFragment
    split_ifs with hquote hspecial
    · refine iff_of_false (not_comment_cons (by decide) _) ?_
      rintro ⟨hbare, -⟩
      rw [hquote] at hbare
      exact absurd (hbare _ mem_cons_self) (by decide)
    · refine iff_of_false (not_comment_cons (by decide) _) ?_
      rintro ⟨hbare, -⟩
      obtain ⟨k, hk, hspecial⟩ := any_eq_true.mp hspecial
      exact Bool.false_ne_true ((hbare k hk).symm.trans hspecial)
    · have hbare : IsBare f := by simpa [IsBare] using hspecial
      rw [comment_append_iff (hv hbare), and_iff_right hbare]

/-! ## The round trip -/

theorem tokenizeResponseFile_iff (args : List (List Character)) :
    tokenizeResponseFile (responseFileContents args) = args ↔
      (∀ arg ∈ args, arg ≠ [] ∧ (∀ c ∈ arg, isLineEnd c = false) ∧ Solid arg) ∧ ¬ BeginsComment args := by
  have hread : responseFileContents args = [ofScalar ' '].intercalate (args.map writeArg) :=
    responseFileContents_eq args
  constructor
  · intro htokens
    have hmem : ∀ arg ∈ args, arg ≠ [] ∧ ∀ c ∈ arg, isLineEnd c = false := by
      intro arg harg
      rw [← htokens] at harg
      exact mem_tokenizeResponseFile harg
    rw [tokenizeResponseFile_line (isLineEnd_responseFileContents (fun arg harg => (hmem arg harg).2))] at htokens
    have hcomment : ¬ ofLiteral "//" <+: responseFileContents args := by
      intro hcomment
      rw [if_pos hcomment] at htokens
      obtain ⟨arg, harg, -⟩ := (comment_iff (fun arg harg => (hmem arg harg).1)).mp hcomment
      rw [← htokens] at harg
      exact absurd harg (by simp)
    rw [if_neg hcomment, hread] at htokens
    refine ⟨fun arg harg => ⟨(hmem arg harg).1, (hmem arg harg).2, ?_⟩, ?_⟩
    · -- the reader drops no character
      have hflatten := (finish_foldl args []).1
      rw [htokens, flatten_nil, nil_append] at hflatten
      apply solid_of_length_kept
      apply length_eq_of_flatMap (h := fun arg => arg) (fun arg _ => length_kept_le arg) _ arg harg
      rw [← hflatten, flatMap_id']
    · exact fun hbegins => hcomment ((comment_iff (fun arg harg => (hmem arg harg).1)).mpr hbegins)
  · rintro ⟨hargs, hbegins⟩
    rw [tokenizeResponseFile_line (isLineEnd_responseFileContents (fun arg harg => (hargs arg harg).2.1)),
      if_neg (fun hcomment => hbegins ((comment_iff (fun arg harg => (hargs arg harg).1)).mp hcomment)), hread]
    exact (finish_foldl args []).2 (fun arg harg => ⟨(hargs arg harg).1, (hargs arg harg).2.2⟩)

/-- Expanding the reference to a file with what is written for the arguments gives the arguments, whatever the other
files are and wherever the file is. A file has a text; `characters` finds the characters of it again. -/
def RoundTrips (u : Path.Unicode) (characters : List Char → List Character) (args : List (List Character)) : Prop :=
  ∀ read basePath f,
    read (responseFile u basePath (ofScalar '@' :: f)) =
      some (characters (unicodeScalars (responseFileContents args))) →
    Expands u read basePath [ofScalar '@' :: f] (.ok args)

variable {u : Path.Unicode} {read : List UInt8 → Option (List Character)} {basePath : List UInt8} {visited : Finset (List UInt8)}
  {nested : List (List Character) → Finset (List UInt8) → Expansion (List (List Character) × Finset (List UInt8))}

theorem expandArgs_of_arguments (h : ∀ arg ∈ args, isReference arg = false) :
    expandArgs u read basePath nested args visited = some (.ok (args, visited)) := by
  induction args with
  | nil => rfl
  | cons arg args ih =>
    rw [expandArgs_argument (h arg mem_cons_self), ih (fun a ha => h a (mem_cons_of_mem arg ha))]
    rfl

/-- Where no file is left to read, an expansion that ends well has no references. -/
theorem eq_of_expandArgs (hread : ∀ path, ¬ IsVisited u visited path → read path = none)
    {r : List (List Character) × Finset (List UInt8)}
    (h : expandArgs u read basePath nested args visited = some (.ok r)) : r.1 = args := by
  induction args generalizing r with
  | nil =>
    cases h
    rfl
  | cons arg args ih =>
    cases href : isReference arg with
    | false =>
      rw [expandArgs_argument href, bind_eq_some] at h
      rcases h with ⟨a, hrest, hreturn⟩ | ⟨e, -, heq⟩
      · cases hreturn
        rw [ih hrest]
      · cases heq
    | true =>
      by_cases hvisited : IsVisited u visited (responseFile u basePath arg)
      · rw [expandArgs_recursion href hvisited] at h
        cases h
      · rw [expandArgs_unreadable href hvisited (hread _ hvisited)] at h
        cases h

/-- A reference to a file without references expands to the tokens of the file. -/
theorem expands_reference {contents : List Character} (href : isReference arg = true)
    (hread : read (responseFile u basePath arg) = some contents)
    (h : ∀ token ∈ tokenizeResponseFile contents, isReference token = false) :
    Expands u read basePath [arg] (.ok (tokenizeResponseFile contents)) := by
  use 2
  have hnested : expandNested u read basePath 1 (tokenizeResponseFile contents)
      (insert (u.normalize (responseFile u basePath arg)) ∅) = some (.ok (tokenizeResponseFile contents, _)) :=
    expandArgs_of_arguments h
  show (expandArgs u read basePath (expandNested u read basePath 1) [arg] ∅).run.map _ = _
  rw [expandArgs_file href (by simp [IsVisited]) hread, hnested]
  show some (Except.ok (tokenizeResponseFile contents ++ [])) = _
  rw [append_nil]

/-- Without other files, the arguments that a reference expands to are the tokens of the file. -/
theorem eq_of_expands_reference {contents : List Character} {result : List (List Character)}
    (href : isReference arg = true) (hread : read (responseFile u basePath arg) = some contents)
    (hother : ∀ path, path ≠ responseFile u basePath arg → read path = none)
    (h : Expands u read basePath [arg] (.ok result)) : result = tokenizeResponseFile contents := by
  obtain ⟨fuel, h⟩ := h
  obtain ⟨r, hexpand, hresult⟩ := Option.map_eq_some_iff.mp h
  cases fuel with
  | zero =>
    have hnone : none = some r := hexpand
    cases hnone
  | succ fuel =>
    have hargs : expandArgs u read basePath (expandNested u read basePath fuel) [arg] ∅ = some r := hexpand
    rw [expandArgs_file href (by simp [IsVisited]) hread, bind_eq_some] at hargs
    rcases hargs with ⟨⟨lines, visited⟩, hlines, hreturn⟩ | ⟨e, -, rfl⟩
    · cases hreturn
      have hlist : lines = tokenizeResponseFile contents := by
        cases fuel with
        | zero =>
          have hnone : none = some (Except.ok (lines, visited)) := hlines
          cases hnone
        | succ fuel =>
          apply eq_of_expandArgs (r := (lines, visited)) _ hlines
          intro path hpath
          apply hother
          rintro rfl
          exact hpath ⟨_, Finset.mem_insert_self _ _, u.same_self _⟩
      cases hresult
      rw [hlist, append_nil]
    · cases hresult

/-- Response files round trip exactly if no argument is empty or contains a line end, white space that the writer does
not quote is absent, and the text does not begin like a comment. What is written has the characters that it is put
together from: no argument begins or ends with a mark that joins the quote or the space next to it. -/
theorem roundTrips_iff (u : Path.Unicode) (characters : List Char → List Character) (args : List (List Character))
    (hcharacters : characters (unicodeScalars (responseFileContents args)) = responseFileContents args)
    (h : ∀ arg ∈ args, isReference arg = false) :
    RoundTrips u characters args ↔
      (∀ arg ∈ args, arg ≠ [] ∧ (∀ c ∈ arg, isLineEnd c = false) ∧ Solid arg) ∧ ¬ BeginsComment args := by
  rw [← tokenizeResponseFile_iff, RoundTrips, hcharacters]
  constructor
  · intro hround
    -- where this is the only file, nothing is left that a token could refer to
    let path := responseFile u [] [ofScalar '@']
    have hread : (fun p => if p = path then some (responseFileContents args) else none) path =
        some (responseFileContents args) := if_pos rfl
    exact (eq_of_expands_reference rfl hread (fun _ h => if_neg h) (hround _ [] [] hread)).symm
  · intro htokens read basePath f hread
    have hexpands : Expands u read basePath [ofScalar '@' :: f]
        (.ok (tokenizeResponseFile (responseFileContents args))) :=
      expands_reference rfl hread (by rwa [htokens])
    rwa [htokens] at hexpands

theorem roundTrips_blank_word :
    RoundTrips .ascii (fun text => text.map ofScalar) [ofLiteral "foo bar", ofLiteral "baz"] := by
  apply (roundTrips_iff _ _ [ofLiteral "foo bar", ofLiteral "baz"] (by decide) (by decide)).mpr
  constructor
  · unfold Solid FragmentSolid IsBare
    decide
  · unfold BeginsComment IsBare
    decide

/-- An empty argument is lost. -/
theorem not_roundTrips :
    ¬ ∀ args, (∀ arg ∈ args, isReference arg = false) → RoundTrips .ascii (fun text => text.map ofScalar) args := by
  intro h
  have hexpands := h [[]] (by decide) (fun _ => some []) [] [] rfl
  have heq := hexpands.unique (expands_reference rfl rfl (by decide))
  cases heq

end Builra.ResponseFiles
