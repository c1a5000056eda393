import Builra.Util.ShellBackslashes
import Builra.Util.ShellQuotes

namespace Builra.UNIXShellCommandCodec

open List

open Character PosixShell

/-!
# `Util.ShellCommand` — commands for a shell

Whether a shell reads the arguments back that `encode` has written, behind the name of a command or as a command line of
their own.
-/

variable (codec : UNIXShellCommandCodec)

/-- The argument can be read back. -/
def Safe (arg : List Character) : Prop :=
  match codec.encodingStrategy with
  | .singleQuotes => QuotesSafely arg
  | .backslashes => BackslashesSafely arg

/-- What is written as it is at the start of an argument. -/
def bareHead (arg : List Character) : List Character :=
  match codec.encodingStrategy with
  | .singleQuotes =>
    let f := arg.takeWhile (· ≠ ofScalar '\'')
    if f.any isSpecialShellCharacter then [] else f
  | .backslashes => arg.takeWhile (fun ch => !isSpecialShellCharacter ch)

/-- A shell reads the arguments that are written. -/
def Yields (args : List (List Character)) : Prop :=
  match codec.encodingBehavior with
  | .argumentsOnly => ∀ name, IsCommandName name →
      IsCommand (name ++ ' ' :: unicodeScalars (codec.encode args)) (name :: args.map unicodeScalars)
  | .fullCommandLine => IsCommand (unicodeScalars (codec.encode args)) (args.map unicodeScalars)

variable {codec : UNIXShellCommandCodec} {arg : List Character} {argIndex : Nat} {t : List Char}

/-! ## Keywords -/

theorem keyword_facts {f : List Character} (hf : isShellKeyword f = true) :
    f ≠ [] ∧ ofScalar '\'' ∉ f ∧ '\'' ∉ unicodeScalars f ∧ '=' ∉ unicodeScalars f := by
  have hall : ∀ f ∈ shellKeywords, f ≠ [] ∧ ofScalar '\'' ∉ f ∧ '\'' ∉ unicodeScalars f ∧ '=' ∉ unicodeScalars f := by
    decide
  exact hall f (of_decide_eq_true hf)

theorem isShellKeyword_of_needs {f : List Character} (h : codec.needsShellKeywordEncoding argIndex f = true) :
    isShellKeyword f = true := by
  simp only [needsShellKeywordEncoding, Bool.and_eq_true] at h
  exact h.2

/-- A string of the scalars of a reserved word is a keyword. -/
theorem isShellKeyword_of_reserved (h : unicodeScalars arg ∈ reservedWords) : isShellKeyword arg = true := by
  have hwords : ∀ w ∈ reservedWords, w.map ofScalar ∈ shellKeywords := by decide
  have hascii : ∀ w ∈ reservedWords, w.all (fun c => c.toNat < 128 ∧ c ≠ '\n') = true := by decide
  have hmap := map_ofScalar_unicodeScalars arg (all_iff_forall_prop.mp (hascii _ h))
  exact decide_eq_true (hmap ▸ hwords _ h)

/-! ## An argument -/

theorem unicodeScalars_encodeArg_singleQuotes (h : codec.encodingStrategy = .singleQuotes) (argIndex : Nat)
    (arg : List Character) : unicodeScalars (codec.encodeArg argIndex arg) = codec.quoted argIndex arg := by
  rw [encodeArg, h]
  rfl

theorem unicodeScalars_encodeArg_backslashes (h : codec.encodingStrategy = .backslashes) (argIndex : Nat)
    (arg : List Character) :
    unicodeScalars (codec.encodeArg argIndex arg) =
      if codec.needsShellKeywordEncoding argIndex arg then '\'' :: unicodeScalars arg ++ ['\''] else written arg := by
  rw [encodeArg, h]
  show unicodeScalars (if _ then _ else _) = _
  split
  · simp
  · rfl

/-- A keyword in quotes is read as it is. -/
theorem writes_keyword (h : isShellKeyword arg = true) :
    Writes ('\'' :: unicodeScalars arg ++ ['\'']) (unicodeScalars arg) (BackslashesSafely arg) := by
  obtain ⟨hne, hquote, hscalars, -⟩ := keyword_facts h
  have hsingle : ∀ k ∈ arg, k.only? ≠ none := fun k hk => only?_of_mem_keyword h hk
  have hescapes : ∀ {string : List Character}, (∀ k ∈ string, k.only? ≠ none) → EscapesSafely false string := by
    intro string hstring
    induction string with
    | nil => rfl
    | cons k string ih =>
      exact .inl ⟨.inl (hstring k mem_cons_self), ih (fun l hl => hstring l (mem_cons_of_mem k hl))⟩
  have hsafe : BackslashesSafely arg :=
    ⟨fun k hk hnone => absurd hnone (hsingle k (mem_of_mem_head? hk)), hescapes hsingle⟩
  have hnotMem : ∀ k ∈ arg, '\'' ∉ k.scalars := fun k hk hmem => hscalars (mem_flatMap_of_mem hk hmem)
  refine ⟨?_, ?_⟩
  · intro t es ht
    have hread : lex .single (unicodeScalars arg ++ '\'' :: t) = some ((unicodeScalars arg ++ []) :: es) ↔
        (∀ k ∈ arg, '\'' ∉ k.scalars) ∧ lex .bare t = some ([] :: es) := lex_quoted (.inl ht) hquote
    rw [append_nil, ht.lex_bare, and_iff_right rfl, and_iff_right hnotMem] at hread
    rw [and_iff_right hsafe, ← hread, append_assoc]
    rfl
  · intro t es _
    rw [append_assoc]
    exact lex_single_fragment_ne_nil hquote hne

/-- An argument that is not empty is read back exactly if it is safe. -/
theorem writes_encodeArg (hne : arg ≠ []) :
    Writes (unicodeScalars (codec.encodeArg argIndex arg)) (unicodeScalars arg) (codec.Safe arg) := by
  unfold Safe
  cases hstrategy : codec.encodingStrategy with
  | singleQuotes =>
    rw [unicodeScalars_encodeArg_singleQuotes hstrategy]
    exact writes_quoted hne
  | backslashes =>
    rw [unicodeScalars_encodeArg_backslashes hstrategy]
    split
    case isTrue hneeds => exact writes_keyword (isShellKeyword_of_needs hneeds)
    case isFalse => exact writes_written hne

/-! ## The arguments -/

theorem unicodeScalars_intercalate (separator : List Character) (l : List (List Character)) :
    unicodeScalars (separator.intercalate l) = (unicodeScalars separator).intercalate (l.map unicodeScalars) := by
  induction l with
  | nil => rfl
  | cons a l ih =>
    cases l with
    | nil => rw [intercalate_singleton, map_singleton, intercalate_singleton]
    | cons b l =>
      rw [intercalate_cons_cons, unicodeScalars_append, unicodeScalars_append, ih]
      exact intercalate_cons_cons.symm

/-- The join sequence is one or more spaces. -/
theorem joinSequence_scalars (codec : UNIXShellCommandCodec) :
    unicodeScalars codec.joinSequence ≠ [] ∧ ∀ c ∈ unicodeScalars codec.joinSequence, c = ' ' := by
  have hspaces : ∀ {string : List Character}, (∀ k ∈ string, k = ofScalar ' ') →
      ∀ c ∈ unicodeScalars string, c = ' ' := by
    intro string hstring c hc
    obtain ⟨k, hk, hc⟩ := mem_flatMap.mp hc
    rw [hstring k hk] at hc
    exact mem_singleton.mp hc
  rcases codec.isValid with hone | ⟨hne, hall⟩
  · rw [hone]
    exact ⟨cons_ne_nil _ _, hspaces (by simp)⟩
  · push Not at hall
    refine ⟨?_, hspaces hall⟩
    obtain ⟨k, string, hcons⟩ := exists_cons_of_ne_nil hne
    rw [hcons, unicodeScalars_cons, hall k (by rw [hcons]; exact mem_cons_self)]
    exact cons_ne_nil _ _

theorem unicodeScalars_encode (codec : UNIXShellCommandCodec) (args : List (List Character)) :
    unicodeScalars (codec.encode args) = (unicodeScalars codec.joinSequence).intercalate
      (args.zipIdx.map (fun a => unicodeScalars (codec.encodeArg a.2 a.1))) := by
  unfold encode
  rw [unicodeScalars_intercalate, map_map]
  rfl

/-- The words that are read are the arguments exactly if each argument is safe and not empty. -/
theorem words_encode (codec : UNIXShellCommandCodec) (args : List (List Character)) :
    words (unicodeScalars (codec.encode args)) = some (args.map unicodeScalars) ↔
      ∀ arg ∈ args, arg ≠ [] ∧ codec.Safe arg := by
  obtain ⟨hne, hblank⟩ := joinSequence_scalars codec
  have hword : args.map unicodeScalars = args.zipIdx.map (fun a => unicodeScalars a.1) := by
    have hfst : args.zipIdx.map Prod.fst = args := zipIdx_map_fst 0 args
    nth_rewrite 1 [← hfst]
    rw [map_map]
    rfl
  have hok : (∀ arg ∈ args, arg ≠ [] ∧ codec.Safe arg) ↔ ∀ a ∈ args.zipIdx, a.1 ≠ [] ∧ codec.Safe a.1 := by
    have hfst : args.zipIdx.map Prod.fst = args := zipIdx_map_fst 0 args
    nth_rewrite 1 [← hfst]
    rw [forall_mem_map]
  rw [words, unicodeScalars_encode, hword, hok]
  apply lex_intercalate hne hblank
  rintro ⟨arg, argIndex⟩ -
  by_cases hnil : arg = []
  · -- nothing is written for an empty argument
    subst hnil
    refine .inl ⟨?_, rfl, fun hok => hok.1 rfl⟩
    show unicodeScalars (codec.encodeArg argIndex []) = []
    cases hstrategy : codec.encodingStrategy with
    | singleQuotes =>
      rw [unicodeScalars_encodeArg_singleQuotes hstrategy]
      rfl
    | backslashes =>
      rw [unicodeScalars_encodeArg_backslashes hstrategy, if_neg]
      · rfl
      · exact fun hneeds => (keyword_facts (isShellKeyword_of_needs hneeds)).1 rfl
  · refine .inr ?_
    show Writes _ (unicodeScalars arg) (arg ≠ [] ∧ codec.Safe arg)
    rw [and_iff_right hnil]
    exact writes_encodeArg hnil

/-! ## The first argument of a command line -/

theorem not_startsAssignment_nil : ¬ StartsAssignment [] := by
  rintro ⟨name, rest, htext, -, -⟩
  exact absurd htext (by simp)

theorem not_startsAssignment_of_notMem {s : List Char} (h : '=' ∉ s) : ¬ StartsAssignment s := by
  rintro ⟨name, rest, rfl, -, -⟩
  exact h (by simp)

/-- The text does not go on with a name or an equals sign. -/
def Stops (u : List Char) : Prop := ∀ c ∈ u.head?, isNameChar c = false ∧ c ≠ '='

theorem stops_cons {c : Char} (hc : isNameChar c = false ∧ c ≠ '=') (u : List Char) : Stops (c :: u) := by
  intro d hd
  cases hd
  exact hc

theorem stops_of_ends (ht : Ends t) : Stops t := by
  rcases ht.cases with rfl | ⟨u, rfl⟩
  · exact fun c hc => absurd hc (by simp)
  · exact stops_cons (by decide) u

theorem startsAssignment_of_stops {u : List Char} (hu : Stops u) : ¬ StartsAssignment u :=
  fun h => not_startsAssignment_nil ((startsAssignment_append (s := []) hu).mp h)

theorem startsAssignment_singleQuotes (h : codec.encodingStrategy = .singleQuotes) (ht : Ends t) :
    StartsAssignment (codec.quoted argIndex arg ++ t) ↔ StartsAssignment (unicodeScalars (codec.bareHead arg)) := by
  -- what is written for the part before the first single quote, and how the text goes on
  obtain ⟨f, u, hf, hhead, htext, hu⟩ : ∃ f u, ofScalar '\'' ∉ f ∧ arg.takeWhile (· ≠ ofScalar '\'') = f ∧
      codec.quoted argIndex arg ++ t = codec.quoted argIndex f ++ u ∧ Stops u := by
    rcases argument_cases arg with harg | ⟨f, rest, rfl, hf⟩
    · refine ⟨arg, t, harg, ?_, rfl, stops_of_ends ht⟩
      rw [takeWhile_eq_self_iff]
      intro k hk
      exact decide_eq_true (fun heq => harg (heq ▸ hk))
    · refine ⟨f, '\\' :: '\'' :: (codec.quoted argIndex rest ++ t), hf, ?_, ?_, stops_cons (by decide) _⟩
      · rw [takeWhile_append_of_pos, takeWhile_cons_of_neg (by simp), append_nil]
        intro k hk
        exact decide_eq_true (fun heq => hf (heq ▸ hk))
      · rw [quoted_append codec argIndex hf, append_assoc]
        rfl
  have hbare : codec.bareHead arg = if f.any isSpecialShellCharacter then [] else f := by
    rw [bareHead, h]
    dsimp only
    rw [hhead]
  rw [htext, hbare]
  by_cases hnil : f = []
  · subst hnil
    exact startsAssignment_append (s := []) hu
  have hne : f ≠ [ofScalar '\''] := by
    rintro rfl
    exact hf mem_cons_self
  rw [quoted_of_notMem codec argIndex hf hnil, encodeFragment, if_neg hne]
  have hquote : ¬ StartsAssignment (unicodeScalars (ofScalar '\'' :: f ++ [ofScalar '\'']) ++ u) :=
    startsAssignment_of_stops (stops_cons (by decide) _)
  cases hspecial : f.any isSpecialShellCharacter with
  | true =>
    rw [if_pos (by simp), if_pos rfl]
    exact iff_of_false hquote not_startsAssignment_nil
  | false =>
    rw [Bool.or_false, if_neg Bool.false_ne_true]
    split
    case isTrue hneeds =>
      have hkeyword := keyword_facts (isShellKeyword_of_needs hneeds)
      exact iff_of_false hquote (not_startsAssignment_of_notMem hkeyword.2.2.2)
    case isFalse => exact startsAssignment_append hu

theorem startsAssignment_backslashes (h : codec.encodingStrategy = .backslashes) (ht : Ends t) :
    StartsAssignment (written arg ++ t) ↔ StartsAssignment (unicodeScalars (codec.bareHead arg)) := by
  have hbare : codec.bareHead arg = arg.takeWhile (fun ch => !isSpecialShellCharacter ch) := by
    rw [bareHead, h]
  rw [hbare]
  clear hbare
  have hsplit : ∃ u, Stops u ∧
      written arg ++ t = unicodeScalars (arg.takeWhile (fun ch => !isSpecialShellCharacter ch)) ++ u := by
    induction arg with
    | nil => exact ⟨t, stops_of_ends ht, rfl⟩
    | cons k arg ih =>
      obtain ⟨u, hstops, hu⟩ := ih
      rcases character_cases k with rfl | ⟨c, rfl, hc, hne⟩ | ⟨c, rfl, hc⟩ | hcluster
      · rw [written_newline]
        exact ⟨_, stops_cons (by decide) _, rfl⟩
      · rw [written_special hc hne, takeWhile_cons_of_neg (by simp [isSpecialShellCharacter_ofScalar, hc])]
        exact ⟨_, stops_cons (by decide) _, rfl⟩
      · rw [written_not_special hc, takeWhile_cons_of_pos (by simp [isSpecialShellCharacter_ofScalar, hc]),
          cons_append, hu]
        exact ⟨u, hstops, rfl⟩
      · rw [written_cluster hcluster, takeWhile_cons_of_pos
          (by simp [isSpecialShellCharacter_of_only?_eq_none hcluster]), append_assoc, hu, unicodeScalars_cons]
        exact ⟨u, hstops, (append_assoc _ _ _).symm⟩
  obtain ⟨u, hstops, hu⟩ := hsplit
  rw [hu]
  exact startsAssignment_append hstops

/-- A command line is an assignment if what is written as it is at its start is one. -/
theorem startsAssignment_encodeArg (ht : Ends t) :
    StartsAssignment (unicodeScalars (codec.encodeArg argIndex arg) ++ t) ↔
      StartsAssignment (unicodeScalars (codec.bareHead arg)) := by
  cases hstrategy : codec.encodingStrategy with
  | singleQuotes =>
    rw [unicodeScalars_encodeArg_singleQuotes hstrategy]
    exact startsAssignment_singleQuotes hstrategy ht
  | backslashes =>
    rw [unicodeScalars_encodeArg_backslashes hstrategy]
    split
    case isFalse => exact startsAssignment_backslashes hstrategy ht
    case isTrue hneeds =>
      have hequals := (keyword_facts (isShellKeyword_of_needs hneeds)).2.2.2
      refine iff_of_false (startsAssignment_of_stops (stops_cons (by decide) _)) ?_
      apply not_startsAssignment_of_notMem
      intro hmem
      rw [bareHead, hstrategy] at hmem
      obtain ⟨k, hk, hc⟩ := mem_flatMap.mp hmem
      exact hequals (mem_flatMap_of_mem ((takeWhile_sublist _).subset hk) hc)

section

variable (hbehavior : codec.encodingBehavior = .fullCommandLine)
include hbehavior

/-- A first argument that is a keyword is written in quotes. -/
theorem encodeArg_keyword (h : isShellKeyword arg = true) :
    ∃ u, unicodeScalars (codec.encodeArg 0 arg) = '\'' :: u := by
  obtain ⟨hne, hquote, -, -⟩ := keyword_facts h
  have hneeds : codec.needsShellKeywordEncoding 0 arg = true := by
    rw [needsShellKeywordEncoding, hbehavior, h]
    rfl
  cases hstrategy : codec.encodingStrategy with
  | singleQuotes =>
    have hfragment : arg ≠ [ofScalar '\''] := by
      rintro rfl
      exact hquote mem_cons_self
    rw [unicodeScalars_encodeArg_singleQuotes hstrategy, quoted_of_notMem codec 0 hquote hne, encodeFragment,
      if_neg hfragment, hneeds, Bool.true_or, if_pos rfl]
    exact ⟨_, rfl⟩
  | backslashes =>
    rw [unicodeScalars_encodeArg_backslashes hstrategy, if_pos hneeds]
    exact ⟨_, rfl⟩

theorem not_startsReserved {es : List (List Char)}
    (hread : lex .between (unicodeScalars (codec.encodeArg 0 arg) ++ t) = some (unicodeScalars arg :: es)) :
    ¬ StartsReserved (unicodeScalars (codec.encodeArg 0 arg) ++ t) := by
  intro hreserved
  obtain ⟨u, hu⟩ := encodeArg_keyword hbehavior (isShellKeyword_of_reserved (mem_reservedWords hreserved hread))
  obtain ⟨w, hw, rest, htext, -⟩ := hreserved
  have hhead : ∀ w ∈ reservedWords, w ≠ [] ∧ w.head? ≠ some '\'' := by decide
  obtain ⟨hne, hquote⟩ := hhead w hw
  obtain ⟨c, v, rfl⟩ := exists_cons_of_ne_nil hne
  rw [hu] at htext
  exact hquote (congrArg some (List.cons.inj htext).1.symm)

/-- A command line is a command with the arguments exactly if these are read, and the first one does not begin with an
assignment. -/
theorem isCommand_encode (args : List (List Character)) :
    IsCommand (unicodeScalars (codec.encode args)) (args.map unicodeScalars) ↔
      words (unicodeScalars (codec.encode args)) = some (args.map unicodeScalars) ∧
        ∀ arg ∈ args.head?, ¬ StartsAssignment (unicodeScalars (codec.bareHead arg)) := by
  unfold IsCommand
  apply and_congr_right
  intro hread
  cases args with
  | nil =>
    refine iff_of_true ⟨not_startsAssignment_nil, ?_⟩ (by simp)
    rintro ⟨w, hw, rest, htext, -⟩
    have hne : ∀ w ∈ reservedWords, w ≠ [] := by decide
    exact hne w hw (append_eq_nil_iff.mp htext.symm).1
  | cons arg args =>
    obtain ⟨hne, hblank⟩ := joinSequence_scalars codec
    obtain ⟨t, htext, hends, -⟩ := @intercalate_cons (unicodeScalars codec.joinSequence) _
      (fun a : List Character × Nat => unicodeScalars (codec.encodeArg a.2 a.1)) hne hblank (arg, 0) (args.zipIdx 1)
    have htext : unicodeScalars (codec.encode (arg :: args)) = unicodeScalars (codec.encodeArg 0 arg) ++ t := by
      rw [unicodeScalars_encode]
      exact htext
    rw [htext] at hread ⊢
    rw [startsAssignment_encodeArg hends, and_iff_left (not_startsReserved hbehavior hread)]
    simp

end

/-! ## Commands -/

/-- A shell reads the arguments back exactly if none is empty, each is safe for the strategy, and a full command line
does not begin with an assignment. -/
theorem yields_iff (codec : UNIXShellCommandCodec) (args : List (List Character)) :
    codec.Yields args ↔
      (∀ arg ∈ args, arg ≠ [] ∧ codec.Safe arg) ∧
        (codec.encodingBehavior = .fullCommandLine →
          ∀ arg ∈ args.head?, ¬ StartsAssignment (unicodeScalars (codec.bareHead arg))) := by
  rw [← words_encode]
  unfold Yields
  cases hbehavior : codec.encodingBehavior with
  | argumentsOnly =>
    rw [and_iff_left (fun h => absurd h (by decide))]
    constructor
    · intro hall
      have hecho : IsCommandName "echo".toList := ⟨by decide, all_iff_forall_prop.mp (by decide), by decide⟩
      exact (isCommand_name hecho).mp (hall _ hecho)
    · exact fun hread name hname => (isCommand_name hname).mpr hread
  | fullCommandLine =>
    rw [forall_prop_of_true rfl]
    exact isCommand_encode hbehavior args

/-- An empty argument is lost, and a line end in an argument ends the command. -/
theorem not_yields : ¬ (new .singleQuotes .argumentsOnly).Yields [[]] ∧
    ¬ (new .backslashes .fullCommandLine).Yields [[ofScalar 'a', lineEnd, ofScalar 'b']] := by
  constructor
  · intro hyields
    have hecho : IsCommandName "echo".toList := ⟨by decide, all_iff_forall_prop.mp (by decide), by decide⟩
    have hread := (hyields _ hecho).1
    exact absurd hread (by decide)
  · intro hyields
    exact absurd hyields.1 (by decide)

end Builra.UNIXShellCommandCodec
