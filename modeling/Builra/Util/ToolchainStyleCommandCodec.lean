import Mathlib.Data.List.SplitBy

namespace Builra.ToolchainStyleCommandCodec

open List

/-!
# `Util.ToolchainStyleCommandCodec` — command lines of the compiler driver

`encode` writes a command as one string and `decode` reads it back, one character a turn. A string is its Unicode scalars,
and so is a character; the characters of a string are found by the standard library's breaking. An argument that begins or
ends with a mark can lose it to the character that is written next to it.
-/

/-! ## The source -/

inductive DecodingError where
  | unexpectedQuotedStringToken
  | unexpectedEscapeSequenceToken
  | unexpectedCharacter
  | unexpectedEscapeSequence (char : List Char)
  | unexpectedEndOfInputInQuotedString
  | unexpectedEndOfInputInEscapeSequence
deriving DecidableEq, Repr

inductive CommandStringParsingState where
  | none
  | inString
  | inQuotedString
  | escapingCharacter
deriving DecidableEq, Repr

def quote : List Char := ['"']
def backslash : List Char := ['\\']
def space : List Char := [' ']
def dollarSign : List Char := ['$']

/-- The characters of the string that decides whether an argument is quoted. -/
def special : List (List Char) := [space, quote, backslash, dollarSign]

/-- The breaking of strings into characters. A special character stands alone but for a scalar behind it that joins what is
in front (a combining mark), and one in front of it that joins what follows; the text on its two sides is broken as if it
stood alone. -/
structure Breaking where
  characters : List Char → List (List Char)
  joinsPrevious : Char → Bool
  joinsNext : Char → Bool
  characters_nil : characters [] = []
  flatten_characters : ∀ string, (characters string).flatten = string
  special_apart : ∀ c ∈ special, c.head?.any joinsPrevious = false ∧ c.getLast?.any joinsNext = false
  characters_append_iff : ∀ c ∈ special, ∀ front back : List (List Char),
    characters (front ++ c :: back).flatten = front ++ c :: back ↔
      (characters front.flatten = front ∧ front.flatten.getLast?.any joinsNext = false) ∧
        characters back.flatten = back ∧ back.flatten.head?.any joinsPrevious = false

def escape (char : List Char) : List (List Char) :=
  if char ∈ [quote, backslash, dollarSign] then [backslash, char] else [char]

variable (u : Breaking)

/-- The characters that are put together for an argument. -/
def encodeArg (arg : List Char) : List (List Char) :=
  if arg = [] then List.replicate 2 quote
  else if ∀ char ∈ u.characters arg, char ∉ special then u.characters arg
  else quote :: (u.characters arg).flatMap escape ++ [quote]

def encodeArgs (sequence : List (List Char)) : List (List Char) :=
  [space].intercalate (sequence.map (encodeArg u))

def encode (sequence : List (List Char)) : List Char := (encodeArgs u sequence).flatten

/-- The variables of the loop of `decode`. -/
structure Decoding where
  args : List (List Char) := []
  s : List Char := []
  state : CommandStringParsingState := .none
deriving DecidableEq

def Decoding.complete (d : Decoding) : Decoding := { args := d.args ++ [d.s], s := [], state := .none }

/-- A turn of the loop of `decode`. -/
def decodeTurn (d : Decoding) (c : List Char) : Except DecodingError Decoding :=
  match d.state with
  | .inString =>
    if c = quote then .error .unexpectedQuotedStringToken
    else if c = backslash then .error .unexpectedEscapeSequenceToken
    else if c = dollarSign then .error .unexpectedCharacter
    else if c = space then .ok d.complete
    else .ok { d with s := d.s ++ c }
  | .inQuotedString =>
    if c = quote then .ok d.complete
    else if c = backslash then .ok { d with state := .escapingCharacter }
    else if c = dollarSign then .error .unexpectedCharacter
    else .ok { d with s := d.s ++ c }
  | .escapingCharacter =>
    if c ∈ [quote, backslash, dollarSign] then .ok { d with s := d.s ++ c, state := .inQuotedString }
    else .error (.unexpectedEscapeSequence c)
  | .none =>
    if c = quote then .ok { d with state := .inQuotedString }
    else if c = backslash then .error .unexpectedEscapeSequenceToken
    else if c = dollarSign then .error .unexpectedCharacter
    else if c = space then .ok d
    else .ok { d with s := d.s ++ c, state := .inString }

/-- What `decode` does at the end of the string. -/
def Decoding.finish (d : Decoding) : Except DecodingError (List (List Char)) :=
  match d.state with
  | .inString => .ok d.complete.args
  | .inQuotedString => .error .unexpectedEndOfInputInQuotedString
  | .escapingCharacter => .error .unexpectedEndOfInputInEscapeSequence
  | .none => .ok d.args

def decode (string : List Char) : Except DecodingError (List (List Char)) :=
  if string = [] then .ok []
  else do (← (u.characters string).foldlM decodeTurn {}).finish

/-! ## Reading an argument back -/

variable {u} {arg : List Char} {args : List (List Char)} {d d' : Decoding} {c : List Char}

/-- The decoder has read `arg`, and is at most short of completing it. -/
def Decoding.HasRead (d : Decoding) (args : List (List Char)) (arg : List Char) : Prop :=
  d = { args := args ++ [arg] } ∨ d = { args := args, s := arg, state := .inString }

theorem Decoding.HasRead.finish (h : d.HasRead args arg) : d.finish = .ok (args ++ [arg]) := by
  rcases h with rfl | rfl
  · rfl
  · rfl

theorem Decoding.HasRead.space (h : d.HasRead args arg) : decodeTurn d space = .ok { args := args ++ [arg] } := by
  rcases h with rfl | rfl
  · rfl
  · rfl

theorem decodeTurn_plain (s : List Char) (hc : c ∉ special) :
    decodeTurn { args, s, state := .inString } c = .ok { args, s := s ++ c, state := .inString } ∧
      decodeTurn { args, s } c = .ok { args, s := s ++ c, state := .inString } := by
  simp only [special, mem_cons, not_mem_nil, or_false, not_or] at hc
  simp [decodeTurn, hc]

/-- Characters without a meaning are appended. -/
theorem foldlM_inString (s : List Char) (rest : List (List Char)) (h : ∀ c ∈ rest, c ∉ special) :
    rest.foldlM decodeTurn { args, s, state := .inString } = .ok { args, s := s ++ rest.flatten, state := .inString } := by
  induction rest generalizing s with
  | nil => rw [flatten_nil, append_nil]; rfl
  | cons c rest ih =>
    rw [foldlM_cons, (decodeTurn_plain s (h c mem_cons_self)).1, flatten_cons, ← append_assoc]
    exact ih (s ++ c) (fun d hd => h d (mem_cons_of_mem c hd))

/-- Between quotes, what is escaped is read as itself. -/
theorem foldlM_inQuotedString (s : List Char) (rest : List (List Char)) :
    (rest.flatMap escape).foldlM decodeTurn { args, s, state := .inQuotedString } =
      .ok { args, s := s ++ rest.flatten, state := .inQuotedString } := by
  induction rest generalizing s with
  | nil => rw [flatMap_nil, flatten_nil, append_nil]; rfl
  | cons c rest ih =>
    have hread : (escape c).foldlM decodeTurn { args, s, state := .inQuotedString } =
        .ok { args, s := s ++ c, state := .inQuotedString } := by
      unfold escape
      split
      case isTrue hc =>
        simp only [mem_cons, not_mem_nil, or_false] at hc
        rcases hc with rfl | rfl | rfl
        · rfl
        · rfl
        · rfl
      case isFalse hc =>
        simp only [mem_cons, not_mem_nil, or_false, not_or] at hc
        simp [decodeTurn, hc]
    rw [flatMap_cons, foldlM_append, hread, flatten_cons, ← append_assoc]
    exact ih (s ++ c)

/-- What is written for an argument is read as this argument. -/
theorem foldlM_encodeArg (args : List (List Char)) (arg : List Char) :
    ∃ d, (encodeArg u arg).foldlM decodeTurn { args } = .ok d ∧ d.HasRead args arg := by
  unfold encodeArg
  split
  case isTrue hnil =>
    subst hnil
    exact ⟨{ args := args ++ [[]] }, rfl, .inl rfl⟩
  case isFalse hne =>
    have hflat := u.flatten_characters arg
    split
    case isTrue hplain =>
      refine ⟨{ args, s := arg, state := .inString }, ?_, .inr rfl⟩
      cases hcs : u.characters arg with
      | nil => exact absurd (by rw [← hflat, hcs]; rfl) hne
      | cons c rest =>
        rw [hcs] at hflat hplain
        rw [foldlM_cons, (decodeTurn_plain [] (hplain c mem_cons_self)).2, ← hflat]
        exact foldlM_inString c rest (fun d hd => hplain d (mem_cons_of_mem c hd))
    case isFalse =>
      refine ⟨{ args := args ++ [arg] }, ?_, .inl rfl⟩
      show foldlM decodeTurn { args, state := .inQuotedString } (_ ++ [quote]) = _
      rw [foldlM_append, foldlM_inQuotedString, hflat]
      rfl

theorem encodeArgs_singleton (arg : List Char) : encodeArgs u [arg] = encodeArg u arg := intercalate_singleton

theorem encodeArgs_cons (arg next : List Char) (sequence : List (List Char)) :
    encodeArgs u (arg :: next :: sequence) = encodeArg u arg ++ space :: encodeArgs u (next :: sequence) := by
  show [space].intercalate (encodeArg u arg :: encodeArg u next :: _) = _
  rw [intercalate_cons_cons]
  simp [encodeArgs]

theorem foldlM_encodeArgs (args sequence : List (List Char)) :
    (encodeArgs u sequence).foldlM decodeTurn { args } >>= Decoding.finish = .ok (args ++ sequence) := by
  induction sequence generalizing args with
  | nil => rw [append_nil]; rfl
  | cons arg sequence ih =>
    obtain ⟨d, hd, hread⟩ : ∃ d, (encodeArg u arg).foldlM decodeTurn { args } = .ok d ∧ d.HasRead args arg :=
      foldlM_encodeArg args arg
    cases sequence with
    | nil =>
      rw [encodeArgs_singleton, hd]
      exact hread.finish
    | cons next sequence =>
      rw [encodeArgs_cons, foldlM_append, hd]
      show foldlM decodeTurn d (space :: _) >>= _ = _
      have hrest := ih (args ++ [arg])
      rw [append_assoc] at hrest
      rw [foldlM_cons, hread.space]
      exact hrest

/-! ## The characters of what is written -/

variable {a b front back rest : List (List Char)}

/-- The characters stand as they are when the text is broken again. -/
def Breaking.IsBroken (u : Breaking) (characters : List (List Char)) : Prop :=
  u.characters characters.flatten = characters

/-- The first scalar does not join what is in front of the text. -/
def Breaking.Opens (u : Breaking) (text : List Char) : Prop := text.head?.any u.joinsPrevious = false

/-- The last scalar does not join what follows the text. -/
def Breaking.Closes (u : Breaking) (text : List Char) : Prop := text.getLast?.any u.joinsNext = false

/-- An argument that is quoted for a character of it begins and ends a text, and so do arguments next to each other. -/
def Breaking.Fits (u : Breaking) (args : List (List Char)) : Prop :=
  (∀ arg ∈ args, (∃ char ∈ u.characters arg, char ∈ special) → u.Opens arg ∧ u.Closes arg) ∧
    args.IsChain (fun arg next => u.Closes arg ∧ u.Opens next)

namespace Breaking

theorem isBroken_append_iff (hc : c ∈ special) : u.IsBroken (front ++ c :: back) ↔
    (u.IsBroken front ∧ u.Closes front.flatten) ∧ u.IsBroken back ∧ u.Opens back.flatten :=
  u.characters_append_iff c hc front back

theorem Opens.append {x y : List Char} (hx : u.Opens x) (hy : u.Opens y) : u.Opens (x ++ y) := by
  cases x with
  | nil => exact hy
  | cons => exact hx

theorem Opens.of_append {x y : List Char} (h : u.Opens (x ++ y)) : u.Opens x := by
  cases x with
  | nil => rfl
  | cons => exact h

theorem Closes.append {x y : List Char} (hx : u.Closes x) (hy : u.Closes y) : u.Closes (x ++ y) := by
  rcases eq_nil_or_concat' y with rfl | ⟨y, c, rfl⟩
  · rwa [append_nil]
  · rw [Closes, ← append_assoc, getLast?_concat]
    rwa [Closes, getLast?_concat] at hy

theorem opens_special (hc : c ∈ special) (x : List Char) : u.Opens (c ++ x) := by
  have h := (u.special_apart c hc).1
  simp only [special, mem_cons, not_mem_nil, or_false] at hc
  rcases hc with rfl | rfl | rfl | rfl <;> exact h

theorem closes_special (hc : c ∈ special) (x : List Char) : u.Closes (x ++ c) := by
  have h := (u.special_apart c hc).2
  simp only [special, mem_cons, not_mem_nil, or_false] at hc
  rcases hc with rfl | rfl | rfl | rfl <;> exact Eq.trans (congrArg (Option.any u.joinsNext) getLast?_concat) h

theorem isBroken_nil : u.IsBroken [] := u.characters_nil

theorem isBroken_cons_iff (hc : c ∈ special) : u.IsBroken (c :: back) ↔ u.IsBroken back ∧ u.Opens back.flatten := by
  show u.IsBroken ([] ++ c :: back) ↔ _
  rw [isBroken_append_iff hc]
  exact and_iff_right ⟨isBroken_nil, rfl⟩

/-- An escape only parts the text at a place where it is parted already. -/
theorem isBroken_escape (front back : List (List Char)) (h : u.IsBroken (front ++ (rest ++ back))) :
    u.IsBroken (front ++ (rest.flatMap escape ++ back)) := by
  induction rest generalizing front with
  | nil => exact h
  | cons c rest ih =>
    rw [flatMap_cons]
    unfold escape
    split
    case isTrue hc =>
      have hmem : c ∈ special := mem_cons_of_mem space hc
      obtain ⟨hfront, hrest⟩ := (isBroken_append_iff hmem).mp h
      have hchar : u.IsBroken (c :: (rest ++ back)) := (isBroken_cons_iff hmem).mpr hrest
      have hescaped : u.IsBroken (front ++ backslash :: c :: (rest ++ back)) :=
        (isBroken_append_iff (by decide)).mpr ⟨hfront, hchar, opens_special hmem _⟩
      have hwritten := ih (front ++ [backslash, c]) (by rwa [append_assoc])
      rwa [append_assoc] at hwritten
    case isFalse =>
      have hwritten := ih (front ++ [c]) (by rwa [append_assoc])
      rwa [append_assoc] at hwritten

theorem isBroken_quoted (h : u.IsBroken rest) (hopens : u.Opens rest.flatten) (hcloses : u.Closes rest.flatten) :
    u.IsBroken (quote :: rest ++ [quote]) := by
  have hrest : u.IsBroken (rest ++ quote :: []) :=
    (isBroken_append_iff (by decide)).mpr ⟨⟨h, hcloses⟩, isBroken_nil, rfl⟩
  have hback : u.Opens (rest ++ [quote]).flatten := by
    rw [flatten_append]
    exact hopens.append (opens_special (by decide) [])
  exact (isBroken_cons_iff (by decide)).mpr ⟨hrest, hback⟩

theorem isBroken_encodeArg (h : (∃ char ∈ u.characters arg, char ∈ special) → u.Opens arg ∧ u.Closes arg) :
    u.IsBroken (encodeArg u arg) := by
  have hflat := u.flatten_characters arg
  have hbroken : u.IsBroken (u.characters arg) := congrArg u.characters hflat
  unfold encodeArg
  split
  case isTrue => exact isBroken_quoted isBroken_nil rfl rfl
  case isFalse =>
    split
    case isTrue => exact hbroken
    case isFalse hspecial =>
      obtain ⟨hopens, hcloses⟩ := h (by simpa using hspecial)
      rw [← hflat] at hopens hcloses
      exact isBroken_escape [quote] [quote] (isBroken_quoted hbroken hopens hcloses)

theorem opens_encodeArg (h : u.Opens arg) : u.Opens (encodeArg u arg).flatten := by
  unfold encodeArg
  split
  case isTrue => exact opens_special (c := quote) (by decide) _
  case isFalse =>
    split
    case isTrue => rwa [u.flatten_characters]
    case isFalse => exact opens_special (c := quote) (by decide) _

theorem closes_encodeArg (h : u.Closes arg) : u.Closes (encodeArg u arg).flatten := by
  unfold encodeArg
  split
  case isTrue => exact closes_special (c := quote) (by decide) quote
  case isFalse =>
    split
    case isTrue => rwa [u.flatten_characters]
    case isFalse =>
      rw [flatten_append]
      exact closes_special (c := quote) (by decide) _

theorem opens_encodeArgs (h : u.Opens arg) (sequence : List (List Char)) :
    u.Opens (encodeArgs u (arg :: sequence)).flatten := by
  cases sequence with
  | nil =>
    rw [encodeArgs_singleton]
    exact opens_encodeArg h
  | cons next sequence =>
    rw [encodeArgs_cons, flatten_append]
    exact (opens_encodeArg h).append (opens_special (by decide) _)

/-- Where the arguments fit, what is written has the characters that it is put together from. -/
theorem isBroken_encodeArgs {sequence : List (List Char)} (h : u.Fits sequence) : u.IsBroken (encodeArgs u sequence) := by
  induction sequence with
  | nil => exact isBroken_nil
  | cons arg sequence ih =>
    have harg : u.IsBroken (encodeArg u arg) := isBroken_encodeArg (h.1 arg mem_cons_self)
    cases sequence with
    | nil =>
      rwa [encodeArgs_singleton]
    | cons next sequence =>
      obtain ⟨⟨hcloses, hopens⟩, htail⟩ := isChain_cons_cons.mp h.2
      have hrest := ih ⟨fun arg harg => h.1 arg (mem_cons_of_mem _ harg), htail⟩
      rw [encodeArgs_cons]
      exact (isBroken_append_iff (by decide)).mpr
        ⟨⟨harg, closes_encodeArg hcloses⟩, hrest, opens_encodeArgs hopens sequence⟩

theorem decode_encode {sequence : List (List Char)} (h : u.Fits sequence) :
    decode u (encode u sequence) = .ok sequence := by
  have hbroken : u.characters (encode u sequence) = encodeArgs u sequence := isBroken_encodeArgs h
  have hread := foldlM_encodeArgs (u := u) [] sequence
  rw [← hbroken] at hread
  unfold decode
  split
  case isTrue hnil =>
    rw [hnil, u.characters_nil] at hread
    exact hread
  case isFalse => exact hread

/-! ## What is read -/

/-- Arguments behind which an argument can follow. -/
def Precede (u : Breaking) (args : List (List Char)) : Prop := u.Fits args ∧ ∀ arg ∈ args, u.Closes arg

theorem Precede.fits (h : u.Precede args) (hopens : args ≠ [] → u.Opens arg)
    (hquoted : (∃ char ∈ u.characters arg, char ∈ special) → u.Opens arg ∧ u.Closes arg) :
    u.Fits (args ++ [arg]) := by
  refine ⟨forall_mem_append.mpr ⟨h.1.1, forall_mem_singleton.mpr hquoted⟩, ?_⟩
  refine isChain_append.mpr ⟨h.1.2, isChain_singleton arg, fun last hlast next hnext => ?_⟩
  cases hnext
  exact ⟨h.2 last (mem_of_getLast? hlast), hopens (ne_nil_of_mem (mem_of_getLast? hlast))⟩

theorem Precede.concat (h : u.Precede args) (hfits : u.Fits (args ++ [arg])) (hcloses : u.Closes arg) :
    u.Precede (args ++ [arg]) :=
  ⟨hfits, forall_mem_append.mpr ⟨h.2, forall_mem_singleton.mpr hcloses⟩⟩

/-- The decoder in front of the characters `rest`, with the characters `front` of the argument that it reads. -/
inductive Reads (u : Breaking) : Decoding → List (List Char) → Prop
  | none {args : _} {rest : _} (hargs : u.Precede args) (hbroken : u.IsBroken rest) (hopens : args ≠ [] → u.Opens rest.flatten) :
    Reads u { args } rest
  | inString {args : _} {s : _} {front : _} {rest : _} (hargs : u.Precede args) (hs : front.flatten = s) (hbroken : u.IsBroken (front ++ rest))
      (hopens : args ≠ [] → u.Opens (front ++ rest).flatten) (hplain : ∀ c ∈ front, c ∉ special) :
    Reads u { args, s, state := .inString } rest
  | inQuotedString {args : _} {s : _} {front : _} {rest : _} (hargs : u.Precede args) (hs : front.flatten = s)
      (hbroken : u.IsBroken (front ++ rest)) (hopens : u.Opens (front ++ rest).flatten) :
    Reads u { args, s, state := .inQuotedString } rest
  | escapingCharacter {args : _} {s : _} {front : _} {rest : _} (hargs : u.Precede args) (hs : front.flatten = s)
      (hbroken : u.IsBroken (front ++ backslash :: rest)) (hopens : u.Opens (front ++ backslash :: rest).flatten) :
    Reads u { args, s, state := .escapingCharacter } rest

theorem fits_inString {s : List Char} (hargs : u.Precede args) (hs : front.flatten = s) (hbroken : u.IsBroken front)
    (hopens : args ≠ [] → u.Opens (front ++ rest).flatten) (hplain : ∀ c ∈ front, c ∉ special) :
    u.Fits (args ++ [s]) := by
  subst hs
  refine hargs.fits (fun hne => ?_) ?_
  · have hopens := hopens hne
    rw [flatten_append] at hopens
    exact hopens.of_append
  · rintro ⟨char, hmem, hspecial⟩
    rw [hbroken] at hmem
    exact absurd hspecial (hplain char hmem)

theorem Reads.decodeTurn (h : u.Reads d (c :: rest)) (hturn : decodeTurn d c = .ok d') : u.Reads d' rest := by
  cases h with
  | none hargs hbroken hopens =>
    simp only [ToolchainStyleCommandCodec.decodeTurn] at hturn
    split_ifs at hturn with hquote hbackslash hdollar hspace <;> cases hturn
    case pos =>
      subst hquote
      obtain ⟨hrest, hopens⟩ := (isBroken_cons_iff (by decide)).mp hbroken
      have hs : ([] : List (List Char)).flatten = [] := rfl
      exact .inQuotedString hargs hs hrest hopens
    case pos =>
      subst hspace
      obtain ⟨hrest, hopens⟩ := (isBroken_cons_iff (by decide)).mp hbroken
      exact .none hargs hrest (fun _ => hopens)
    case neg =>
      have hs : [c].flatten = [] ++ c := append_nil c
      exact .inString hargs hs hbroken hopens (by simp [special, hquote, hbackslash, hdollar, hspace])
  | @inString args s front _ hargs hs hbroken hopens hplain =>
    simp only [ToolchainStyleCommandCodec.decodeTurn] at hturn
    split_ifs at hturn with hquote hbackslash hdollar hspace <;> cases hturn
    case pos =>
      subst hspace
      obtain ⟨⟨hfront, hcloses⟩, hrest, hopen⟩ := (isBroken_append_iff (by decide)).mp hbroken
      rw [hs] at hcloses
      exact .none (hargs.concat (fits_inString hargs hs hfront hopens hplain) hcloses) hrest (fun _ => hopen)
    case neg =>
      rw [append_cons] at hbroken hopens
      refine .inString hargs (by rw [flatten_concat, hs]) hbroken hopens (forall_mem_append.mpr ⟨hplain, ?_⟩)
      simp [special, hquote, hbackslash, hdollar, hspace]
  | @inQuotedString args s front _ hargs hs hbroken hopens =>
    simp only [ToolchainStyleCommandCodec.decodeTurn] at hturn
    split_ifs at hturn with hquote hbackslash hdollar <;> cases hturn
    case pos =>
      subst hquote
      obtain ⟨⟨hfront, hcloses⟩, hrest, hopen⟩ := (isBroken_append_iff (by decide)).mp hbroken
      rw [flatten_append, hs] at hopens
      rw [hs] at hcloses
      have hfits := hargs.fits (fun _ => hopens.of_append) (fun _ => ⟨hopens.of_append, hcloses⟩)
      exact .none (hargs.concat hfits hcloses) hrest (fun _ => hopen)
    case pos =>
      subst hbackslash
      exact .escapingCharacter hargs hs hbroken hopens
    case neg =>
      rw [append_cons] at hbroken hopens
      exact .inQuotedString hargs (by rw [flatten_concat, hs]) hbroken hopens
  | @escapingCharacter args s front _ hargs hs hbroken hopens =>
    simp only [ToolchainStyleCommandCodec.decodeTurn] at hturn
    split_ifs at hturn with hc
    cases hturn
    -- the backslash goes, and the character behind it is special as well
    have hmem : c ∈ special := mem_cons_of_mem space hc
    obtain ⟨hfront, hrest, -⟩ := (isBroken_append_iff (by decide)).mp hbroken
    have hjoined : u.IsBroken (front ++ c :: rest) :=
      (isBroken_append_iff hmem).mpr ⟨hfront, (isBroken_cons_iff hmem).mp hrest⟩
    rw [flatten_append] at hopens
    have hopens : u.Opens (front ++ c :: rest).flatten := by
      rw [flatten_append]
      exact hopens.of_append.append (opens_special hmem _)
    rw [append_cons] at hjoined hopens
    exact .inQuotedString hargs (by rw [flatten_concat, hs]) hjoined hopens

theorem Reads.foldlM (h : u.Reads d rest) (hfold : rest.foldlM ToolchainStyleCommandCodec.decodeTurn d = .ok d') :
    u.Reads d' [] := by
  induction rest generalizing d with
  | nil =>
    cases hfold
    exact h
  | cons c rest ih =>
    rw [foldlM_cons] at hfold
    cases hturn : ToolchainStyleCommandCodec.decodeTurn d c with
    | error error =>
      rw [hturn] at hfold
      cases hfold
    | ok next =>
      rw [hturn] at hfold
      exact ih (h.decodeTurn hturn) hfold

theorem fits_of_decode {string : List Char} (h : decode u string = .ok args) : u.Fits args := by
  unfold decode at h
  split at h
  case isTrue =>
    cases h
    exact ⟨nofun, .nil⟩
  case isFalse =>
    cases hfold : (u.characters string).foldlM ToolchainStyleCommandCodec.decodeTurn {} with
    | error error =>
      rw [hfold] at h
      cases h
    | ok d =>
      rw [hfold] at h
      have hbroken : u.IsBroken (u.characters string) := congrArg u.characters (u.flatten_characters string)
      have hargs : u.Precede [] := ⟨⟨nofun, .nil⟩, nofun⟩
      have hreads : u.Reads d [] := Reads.foldlM (.none hargs hbroken (fun hne => absurd rfl hne)) hfold
      cases hreads with
      | none hargs =>
        cases h
        exact hargs.1
      | inString hargs hs hbroken hopens hplain =>
        cases h
        rw [append_nil] at hbroken
        exact fits_inString hargs hs hbroken hopens hplain
      | inQuotedString => cases h
      | escapingCharacter => cases h

end Breaking

/-- A command is read back as it was written if and only if its arguments fit, and what `decode` returns for any string
is such a command. -/
theorem decode_encode_iff (u : Breaking) :
    (∀ sequence : List (List Char), decode u (encode u sequence) = .ok sequence ↔ u.Fits sequence) ∧
      ∀ string : List Char, (∃ error, decode u string = .error error) ∨
        ∃ sequence, decode u string = .ok sequence ∧ decode u (encode u sequence) = .ok sequence := by
  refine ⟨fun sequence => ⟨Breaking.fits_of_decode, Breaking.decode_encode⟩, fun string => ?_⟩
  cases hdecode : decode u string with
  | error error => exact .inl ⟨error, rfl⟩
  | ok sequence => exact .inr ⟨sequence, rfl, Breaking.decode_encode (Breaking.fits_of_decode hdecode)⟩

/-! ## Marks -/

/-- The block of combining diacritical marks. -/
def isMark (c : Char) : Bool := 0x300 ≤ c.toNat && c.toNat ≤ 0x36F

/-- The breaking of a text without joining scalars but these marks. -/
def Breaking.marks : Breaking where
  characters := splitBy (fun _ c => isMark c)
  joinsPrevious := isMark
  joinsNext _ := false
  characters_nil := rfl
  flatten_characters := flatten_splitBy _
  special_apart := by decide
  characters_append_iff := by
    intro c hc front back
    obtain ⟨x, rfl, hx⟩ : ∃ x, c = [x] ∧ isMark x = false := by
      simp only [special, mem_cons, not_mem_nil, or_false] at hc
      rcases hc with rfl | rfl | rfl | rfl <;> exact ⟨_, rfl, rfl⟩
    have hlast : [] ∉ front → ∀ l ∈ front.getLast?, l ≠ [] := fun h l hl => ne_of_mem_of_not_mem (mem_of_getLast? hl) h
    have hhead : [] ∉ back → ((∀ l ∈ back.head?, ∃ hb : l ≠ [], isMark (l.head hb) = false) ↔
        back.flatten.head?.any isMark = false) := by
      intro h
      rcases back with _ | ⟨_ | ⟨y, l⟩, back⟩
      · simp
      · exact absurd mem_cons_self h
      · simp
    simp [splitBy_eq_iff, isChain_append, isChain_cons, hx, or_imp, forall_and]
    simp at hlast hhead
    tauto

/-- The mark joins the space, and one argument is read. -/
theorem decode_encode_mark :
    decode .marks (encode .marks [['a'], [Char.ofNat 0x301, 'b']]) ≠ .ok [['a'], [Char.ofNat 0x301, 'b']] ∧
      decode .marks (encode .marks [['a'], [Char.ofNat 0x301, 'b']]) = .ok [['a', ' ', Char.ofNat 0x301, 'b']] := by
  decide

end Builra.ToolchainStyleCommandCodec
