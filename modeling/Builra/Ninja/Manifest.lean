import Builra.Util.PathNormalize
import Builra.Lib.Loop

namespace Builra

open List Path Option

/-!
# `Ninja.Manifest` — the paths of nodes

A node is found by its path, which is made absolute and normalized. `normalizePath` does so in one pass over a buffer,
with a cursor that reads and one that writes behind it. The rule is the one of `Util.PathNormalize`, but a slash stays at
the end where the last component names a directory.
-/

namespace Ninja

/-! ## The source -/

/-- `get_separator`, on POSIX. -/
abbrev slash : UInt8 := Path.pathSeparatorUTF8

variable (path : List UInt8)

/-- `path::begin`: the root name `//net`, the root directory or a name. -/
def firstComponent : List UInt8 :=
  if path.take 2 = [slash, slash] ∧ path.drop 2 ≠ [] ∧ path[2]? ≠ some slash then
    path.take 2 ++ (path.drop 2).takeWhile (fun c => c ≠ slash)
  else if path.head? = some slash then path.take 1
  else path.takeWhile (fun c => c ≠ slash)

def hasNet (component : List UInt8) : Prop := 2 < component.length ∧ component.take 2 = [slash, slash]

instance (component : List UInt8) : Decidable (hasNet component) := inferInstanceAs (Decidable (_ ∧ _))

def rootName : List UInt8 := if hasNet (firstComponent path) then firstComponent path else []

/-- Behind a root name there is a separator, or nothing. -/
def rootDirectory : List UInt8 :=
  if hasNet (firstComponent path) then (path.drop (firstComponent path).length).take 1
  else if (firstComponent path).head? = some slash then firstComponent path
  else []

def relativePath : List UInt8 := path.drop (rootName path ++ rootDirectory path).length

/-- `path::append`, of one component. -/
def append (path component : List UInt8) : List UInt8 :=
  if path.getLast? = some slash then path ++ component.dropWhile (fun c => c = slash)
  else if component.head? ≠ some slash ∧ ¬ (path = [] ∨ rootName component ≠ []) then path ++ slash :: component
  else path ++ component

/-- `fs::make_absolute` -/
def makeAbsolute (currentDirectory path : List UInt8) : List UInt8 :=
  if rootDirectory path ≠ [] then path
  else [rootName path, rootDirectory currentDirectory, relativePath currentDirectory, relativePath path].foldl append []

/-- The buffer, with `src_it` and `dst_it`. -/
structure Cursors where
  tmp : List UInt8
  src : Nat
  dst : Nat

namespace Cursors

variable (c : Cursors)

def peek (n : Nat) : Option UInt8 := c.tmp[c.src + n]?

/-- `*dst_it++ = b` -/
def put (b : UInt8) : Cursors := { c with tmp := c.tmp.set c.dst b, dst := c.dst + 1 }

def skip (n : Nat) : Cursors := { c with src := c.src + n }

/-- The loop back to a slash behind the start, and past it. -/
def back (tmp : List UInt8) (start : Nat) : Nat → Nat
  | 0 => 0
  | n + 1 => if tmp[start + (n + 1)]? = some slash then n + 2 else back tmp start n

variable (start : Nat)

variable (c : Cursors)

/-- Move destination pointer to the previous directory. -/
def up : Cursors :=
  if c.dst - start ≤ 1 then c
  else
    match back c.tmp start (c.dst - start - 2) with
    | 0 => { c with dst := start }.put slash
    | n + 1 => { c with dst := start + (n + 1) }

/-- What follows a slash. To leave the loop is to have read everything. -/
def look : Cursors :=
  if c.peek 1 ≠ some 46 then c.skip 1
  else if c.peek 2 = none then c.skip 2
  else if c.peek 2 ≠ some 46 then
    -- the cursor that writes is not ahead, and the dot is still there
    if c.peek 2 = some slash then c.skip 2 else (c.put 46).skip 2
  else if c.peek 3 ≠ none ∧ c.peek 3 ≠ some slash then c.skip 1
  else (c.up start).skip 3

def putSlash : Cursors :=
  if c.dst = start ∨ c.tmp[c.dst - 1]? ≠ some slash then c.put slash else c

def turn : Option Cursors :=
  (c.peek 0).map fun b => if b ≠ slash then (c.put b).skip 1 else look start (c.putSlash start)

def pass : Cursors := Loop.turns (turn start) (c.tmp.length - c.src) c

end Cursors

/-- `normalize_path`; none if the path stays relative. -/
def normalizePath (workingDirectory tmp : List UInt8) : Option (List UInt8) :=
  let tmp := makeAbsolute workingDirectory tmp
  if tmp = [] ∨ rootDirectory tmp = [] then none
  else
    let start := (rootName tmp).length
    let c := Cursors.pass start ⟨tmp, start, start⟩
    some (c.tmp.take c.dst)

/-! ## The rule -/

/-- The last component of a path that ends with a slash. -/
def NamesDirectory (component : List UInt8) : Prop := component = [] ∨ component = Path.dot ∨ component = Path.dotDot

instance (component : List UInt8) : Decidable (NamesDirectory component) := inferInstanceAs (Decidable (_ ∨ _ ∨ _))

/-- The components, resolved and put together again, with a slash behind those of a directory that is not the root. -/
def normalizedPath (path : List UInt8) : List UInt8 :=
  let components := path.splitOn slash
  let result := Path.render true (Path.resolve true components)
  if (∃ last ∈ components.getLast?, NamesDirectory last) ∧ result ≠ [slash] then result ++ [slash] else result

/-! ## Cursors in the buffer -/

namespace Cursors

/-- What has been written, and what is still to be read. -/
def At (c : Cursors) (out rest : List UInt8) : Prop :=
  ∃ gap, c.tmp = out ++ gap ++ rest ∧ c.src = out.length + gap.length ∧ c.dst = out.length

variable {c c' : Cursors} {out rest tail name : List UInt8} {b : UInt8} {start n : Nat}

theorem At.peek (h : At c out rest) (n : Nat) : c.peek n = rest[n]? := by
  obtain ⟨gap, htmp, hsrc, -⟩ := h
  unfold Cursors.peek
  rw [htmp, hsrc, getElem?_append_right (by rw [length_append]; omega), length_append, Nat.add_sub_cancel_left]

theorem At.skip (h : At c out (name ++ rest)) (hn : name.length = n) : At (c.skip n) out rest := by
  obtain ⟨gap, htmp, hsrc, hdst⟩ := h
  refine ⟨gap ++ name, ?_, ?_, hdst⟩
  · show c.tmp = _
    simp [htmp]
  · show c.src + n = _
    rw [hsrc, length_append, hn, Nat.add_assoc]

/-- The character that is read leaves room for one that is written. -/
theorem At.put_skip (h : At c out (b :: rest)) (b' : UInt8) : At ((c.put b').skip 1) (out ++ [b']) rest := by
  obtain ⟨gap, htmp, hsrc, hdst⟩ := h
  have hset : c.tmp.set c.dst b' = out ++ [b'] ++ (gap ++ [b]).tail ++ rest := by
    rw [htmp, hdst, append_assoc, set_append_right _ _ (Nat.le_refl _), Nat.sub_self]
    cases gap <;> simp
  refine ⟨_, hset, ?_, ?_⟩
  · show c.src + 1 = _
    rw [hsrc, length_tail, length_append, length_append]
    exact Nat.add_right_comm _ _ _
  · show c.dst + 1 = _
    rw [hdst, length_append]
    rfl

theorem At.putSlash (h : At c out (b :: rest)) (hout : out.getLast? ≠ some slash) :
    At ((c.putSlash 0).skip 1) (out ++ [slash]) rest := by
  have hput : c.putSlash 0 = c.put slash := by
    obtain ⟨gap, htmp, -, hdst⟩ := h
    unfold Cursors.putSlash
    refine if_pos ?_
    rcases eq_nil_or_concat out with rfl | ⟨front, x, rfl⟩
    · exact .inl hdst
    · rw [concat_eq_append] at htmp hdst hout
      refine .inr ?_
      rw [htmp, hdst, length_append, getElem?_append_left (by simp), getElem?_append_left (by simp)]
      rw [getLast?_concat] at hout
      simpa using hout
  rw [hput]
  exact h.put_skip slash

theorem At.putSlash_again (h : At c (out ++ [slash]) (b :: rest)) : At ((c.putSlash 0).skip 1) (out ++ [slash]) rest := by
  have hput : c.putSlash 0 = c := by
    obtain ⟨gap, htmp, -, hdst⟩ := h
    unfold Cursors.putSlash
    refine if_neg ?_
    rw [htmp, hdst, length_append, not_or]
    refine ⟨Nat.succ_ne_zero _, ?_⟩
    rw [getElem?_append_left (by simp), getElem?_append_left (by simp)]
    simp
  rw [hput]
  exact (show At c (out ++ [slash]) ([b] ++ rest) from h).skip rfl

/-! ## Back to the parent directory -/

theorem back_add {tmp : List UInt8} {m : Nat} (h : ∀ j, j < n → tmp[m + (j + 1)]? ≠ some slash) :
    back tmp 0 (m + n) = back tmp 0 m := by
  induction n with
  | zero => rfl
  | succ n ih =>
    rw [← Nat.add_assoc, back, Nat.zero_add, Nat.add_assoc, if_neg (h n (Nat.lt_succ_self n))]
    exact ih fun j hj => h j (Nat.lt_succ_of_lt hj)

/-- A directory is removed with the slash behind it. -/
theorem At.up (h : At c (out ++ slash :: (name ++ [slash])) rest) (hname : slash ∉ name) : At (c.up 0) (out ++ [slash]) rest := by
  obtain ⟨gap, htmp, hsrc, hdst⟩ := h
  have hdst' : c.dst = out.length + name.length + 2 := by
    rw [hdst]
    simp only [length_append, length_cons, length_nil]
    omega
  have hat : c.tmp[out.length]? = some slash := by
    rw [htmp]
    simp
  have hback : back c.tmp 0 (out.length + name.length) = back c.tmp 0 out.length := by
    refine back_add fun j hj => ?_
    have hget : c.tmp[out.length + (j + 1)]? = name[j]? := by
      rw [htmp, append_assoc, append_assoc, getElem?_append_right (Nat.le_add_right _ _), Nat.add_sub_cancel_left,
        cons_append, getElem?_cons_succ, append_assoc, getElem?_append_left hj]
    rw [hget]
    intro hj
    exact hname (mem_of_getElem? hj)
  have hsrc' : c.src = (out ++ [slash]).length + (name ++ slash :: gap).length := by
    rw [hsrc]
    simp only [length_append, length_cons, length_nil]
    omega
  have htmp' : c.tmp = out ++ [slash] ++ (name ++ slash :: gap) ++ rest := by
    rw [htmp]
    simp
  unfold Cursors.up
  rw [if_neg (by omega)]
  rw [Nat.sub_zero, show c.dst - 2 = out.length + name.length by omega, hback]
  cases hlength : out.length with
  | zero =>
    -- the slash at the start is written once more
    obtain rfl := length_eq_zero_iff.mp hlength
    refine ⟨name ++ slash :: gap, ?_, hsrc', rfl⟩
    show c.tmp.set 0 slash = _
    rw [htmp']
    rfl
  | succ n =>
    rw [hlength] at hat
    rw [back, Nat.zero_add, hat, if_pos rfl]
    refine ⟨name ++ slash :: gap, htmp', hsrc', ?_⟩
    show 0 + (n + 1 + 1) = _
    rw [length_append, hlength, Nat.zero_add]
    rfl

/-! ## The loop -/

theorem up_spec (start : Nat) (c : Cursors) : (c.up start).tmp.length = c.tmp.length ∧ (c.up start).src = c.src := by
  unfold Cursors.up
  split_ifs with htop
  · exact ⟨rfl, rfl⟩
  · split
    · exact ⟨length_set, rfl⟩
    · exact ⟨rfl, rfl⟩

theorem look_spec (start : Nat) (c : Cursors) :
    (c.look start).tmp.length = c.tmp.length ∧ c.src < (c.look start).src := by
  have hskip : ∀ n, 0 < n → c.src < c.src + n := fun n hn => Nat.lt_add_of_pos_right hn
  unfold Cursors.look
  split_ifs with h1 h2 h3 h4 h5
  · exact ⟨rfl, hskip 1 (by decide)⟩
  · exact ⟨rfl, hskip 2 (by decide)⟩
  · exact ⟨rfl, hskip 2 (by decide)⟩
  · exact ⟨length_set, hskip 2 (by decide)⟩
  · exact ⟨rfl, hskip 1 (by decide)⟩
  · obtain ⟨hlength, hsrc⟩ := up_spec start c
    refine ⟨hlength, ?_⟩
    show c.src < (c.up start).src + 3
    rw [hsrc]
    exact hskip 3 (by decide)

theorem putSlash_spec (start : Nat) (c : Cursors) :
    (c.putSlash start).tmp.length = c.tmp.length ∧ (c.putSlash start).src = c.src := by
  unfold Cursors.putSlash
  split_ifs
  · exact ⟨length_set, rfl⟩
  · exact ⟨rfl, rfl⟩

theorem turn_spec (h : turn start c = some c') : c'.tmp.length - c'.src < c.tmp.length - c.src := by
  obtain ⟨b, hb, rfl⟩ := map_eq_some_iff.mp h
  have hlt : c.src < c.tmp.length := (List.getElem?_eq_some_iff.mp hb).1
  split_ifs with hslash
  · have hlength : ((c.put b).skip 1).tmp.length = c.tmp.length := length_set
    have hsrc : ((c.put b).skip 1).src = c.src + 1 := rfl
    omega
  · obtain ⟨hlength, hsrc⟩ := putSlash_spec start c
    obtain ⟨hlength', hsrc'⟩ := look_spec start (c.putSlash start)
    omega

theorem pass_of_turn (h : turn start c = some c') : pass start c = pass start c' :=
  Loop.turns_of_some (fun _ _ => turn_spec) h

theorem At.pass_nil (h : At c out []) : pass 0 c = c :=
  Loop.turns_of_none (by rw [turn, h.peek]; rfl) _

theorem At.pass_slash (h : At c out (slash :: rest)) : pass 0 c = pass 0 (look 0 (c.putSlash 0)) :=
  pass_of_turn (by rw [turn, h.peek]; exact congrArg some (if_neg (not_not_intro rfl)))

/-- The characters of a name are copied. -/
theorem At.pass_name (h : At c out (name ++ rest)) (hname : slash ∉ name) :
    ∃ c', pass 0 c = pass 0 c' ∧ At c' (out ++ name) rest := by
  induction name generalizing c out with
  | nil => exact ⟨c, rfl, (append_nil out).symm ▸ h⟩
  | cons b name ih =>
    rw [mem_cons, not_or] at hname
    have hturn : turn 0 c = some ((c.put b).skip 1) := by
      rw [turn, h.peek]
      exact congrArg some (if_pos (Ne.symm hname.1))
    obtain ⟨c', hpass, hat⟩ := ih (h.put_skip b) hname.2
    refine ⟨c', (pass_of_turn hturn).trans hpass, ?_⟩
    rwa [append_assoc] at hat

theorem up_skip (start n : Nat) (c : Cursors) : (c.skip n).up start = (c.up start).skip n := by
  unfold Cursors.up
  by_cases htop : c.dst - start ≤ 1
  · rw [if_pos htop, if_pos (show (c.skip n).dst - start ≤ 1 from htop)]
  · rw [if_neg htop, if_neg (show ¬ (c.skip n).dst - start ≤ 1 from htop)]
    show (match back c.tmp start (c.dst - start - 2) with | 0 => _ | n + 1 => _) = _
    cases back c.tmp start (c.dst - start - 2) <;> rfl

/-! ## Components -/

variable (names : List (List UInt8))

/-- Names, each behind a slash. -/
def trail : List UInt8 := names.flatMap (slash :: ·)

theorem trail_append (d : List UInt8) : trail (names ++ [d]) = trail names ++ slash :: d := by
  unfold trail
  rw [flatMap_append, flatMap_cons, flatMap_nil, append_nil]

variable {kept : List (List UInt8)} {d : List UInt8}

theorem getLast?_trail (h : Path.Resolved true kept) : (trail kept).getLast? ≠ some slash := by
  rcases eq_nil_or_concat kept with rfl | ⟨front, d, rfl⟩
  · exact fun h => nomatch h
  · rw [concat_eq_append] at h ⊢
    obtain ⟨hne, hslash⟩ : d ≠ [] ∧ slash ∉ d := (h.isComponent d (by simp)).1.casesOn And.intro
    rw [trail_append, getLast?_append, getLast?_cons_of_ne_nil hne]
    intro hlast
    rw [getLast?_eq_some_getLast hne, some_or] at hlast
    rw [← (Option.some.inj hlast : d.getLast hne = slash)] at hslash
    exact hslash (getLast_mem hne)

theorem resolve_dotDot (h : Path.Resolved true kept) : Path.resolveComponent true kept Path.dotDot = kept.dropLast := by
  unfold resolveComponent
  rw [if_neg (by decide), if_pos rfl]
  rcases eq_nil_or_concat kept with rfl | ⟨front, last, rfl⟩
  · rfl
  · rw [concat_eq_append] at h ⊢
    rw [getLast?_concat]
    refine if_neg ?_
    rintro rfl
    exact absurd (h.dotDot_front front (prefix_refl _)).1 (by decide)

theorem resolve_name (h : ¬ NamesDirectory d) : Path.resolveComponent true kept d = kept ++ [d] := by
  unfold NamesDirectory at h
  rw [not_or, not_or] at h
  unfold resolveComponent
  rw [if_neg (not_or_intro h.1 h.2.1), if_neg h.2.2]

theorem At.parent (h : At c (trail kept ++ [slash]) rest) (hkept : Path.Resolved true kept) :
    At (c.up 0) (trail kept.dropLast ++ [slash]) rest := by
  rcases eq_nil_or_concat kept with rfl | ⟨front, name, rfl⟩
  · have htop : c.up 0 = c := by
      obtain ⟨gap, -, -, hdst⟩ := h
      exact if_pos (by rw [hdst]; decide)
    rw [htop]
    exact h
  · rw [concat_eq_append] at h hkept ⊢
    rw [trail_append, append_assoc] at h
    rw [dropLast_concat]
    exact h.up (hkept.isComponent name (by simp)).1.notMem

/-- What is written when a component has been read. -/
def written (kept : List (List UInt8)) (d : List UInt8) : List UInt8 :=
  trail (Path.resolveComponent true kept d) ++ if NamesDirectory d then [slash] else []

/-- A component ends where the path does, or before a slash. -/
def AtEnd (tail : List UInt8) : Prop := tail[0]? = none ∨ tail[0]? = some slash

theorem atEnd_trail (names : List (List UInt8)) : AtEnd (trail names) := by
  cases names with
  | nil => exact .inl rfl
  | cons d names => exact .inr rfl

theorem look_of_ne (h : c.peek 1 ≠ some 46) : c.look start = c.skip 1 := if_pos h

theorem look_dot (h : c.peek 1 = some 46) (h' : c.peek 2 = none ∨ c.peek 2 = some slash) : c.look start = c.skip 2 := by
  unfold Cursors.look
  rw [h, if_neg (not_not_intro rfl)]
  rcases h' with h' | h'
  · rw [h', if_pos rfl]
  · rw [h', if_neg (fun h => nomatch h), if_pos (by decide), if_pos rfl]

theorem look_dots (h : c.peek 1 = some 46) (h' : c.peek 2 = some 46) :
    c.look start = if c.peek 3 ≠ none ∧ c.peek 3 ≠ some slash then c.skip 1 else (c.up start).skip 3 := by
  unfold Cursors.look
  rw [h, h', if_neg (not_not_intro rfl), if_neg (fun h => nomatch h), if_neg (not_not_intro rfl)]

/-- A name is copied, from its first character or behind a dot. -/
theorem At.look_name (h : At (c.skip 1) out (d ++ tail)) (hd : slash ∉ d) (hname : ¬ NamesDirectory d)
    (hpeek : ∀ n, c.peek (n + 1) = (d ++ tail)[n]?) :
    ∃ front name, d = front ++ name ∧ At (c.look 0) (out ++ front) (name ++ tail) := by
  unfold NamesDirectory at hname
  rw [not_or, not_or] at hname
  have hall : c.look 0 = c.skip 1 → ∃ front name, d = front ++ name ∧ At (c.look 0) (out ++ front) (name ++ tail) := by
    intro hlook
    rw [hlook]
    exact ⟨[], d, rfl, by rwa [append_nil]⟩
  cases d with
  | nil => exact absurd rfl hname.1
  | cons b d =>
    have hb : c.peek 1 = some b := hpeek 0
    by_cases hdot : b = 46
    · subst hdot
      cases d with
      | nil => exact absurd rfl hname.2.1
      | cons b' d =>
        have hb' : c.peek 2 = some b' := hpeek 1
        by_cases hdots : b' = 46
        · subst hdots
          cases d with
          | nil => exact absurd rfl hname.2.2
          | cons x d =>
            have hx : c.peek 3 = some x := hpeek 2
            refine hall ((look_dots hb hb').trans (if_pos ?_))
            rw [hx]
            refine ⟨some_ne_none x, ?_⟩
            rintro ⟨⟩
            exact hd (by simp)
        · -- the dot is written when the character behind it is known
          have hlook : c.look 0 = (c.put 46).skip 2 := by
            unfold Cursors.look
            rw [hb, hb', if_neg (not_not_intro rfl), if_neg (some_ne_none b'), if_pos (by simpa using hdots)]
            refine if_neg ?_
            rintro ⟨⟩
            exact hd (by simp)
          rw [hlook]
          exact ⟨[46], b' :: d, rfl, h.put_skip 46⟩
    · exact hall (look_of_ne (by rw [hb]; simpa using hdot))

/-- Behind a slash, with the cursor still on it. -/
theorem At.look (h : At (c.skip 1) (trail kept ++ [slash]) (d ++ tail)) (hkept : Path.Resolved true kept)
    (hd : slash ∉ d) (htail : AtEnd tail) :
    ∃ c', pass 0 (c.look 0) = pass 0 c' ∧ At c' (written kept d) tail := by
  have hpeek : ∀ n, c.peek (n + 1) = (d ++ tail)[n]? := by
    intro n
    rw [← h.peek]
    show c.tmp[c.src + (n + 1)]? = c.tmp[c.src + 1 + n]?
    rw [Nat.add_comm n 1, Nat.add_assoc]
  by_cases hname : NamesDirectory d
  · refine ⟨c.look 0, rfl, ?_⟩
    rw [written, if_pos hname]
    rcases hname with rfl | rfl | rfl
    · have hne : c.peek 1 ≠ some 46 := by
        rw [hpeek 0, nil_append]
        rcases htail with htail | htail
        · rw [htail]
          exact fun h => nomatch h
        · rw [htail]
          decide
      rw [look_of_ne hne]
      exact h
    · have hend : c.peek 2 = none ∨ c.peek 2 = some slash := htail.imp (hpeek 1).trans (hpeek 1).trans
      rw [look_dot (hpeek 0) hend]
      exact At.skip (n := 1) h rfl
    · have hend : c.peek 3 = none ∨ c.peek 3 = some slash := htail.imp (hpeek 2).trans (hpeek 2).trans
      rw [look_dots (hpeek 0) (hpeek 1), if_neg (fun h => hend.elim h.1 h.2), resolve_dotDot hkept]
      have hup := h.parent hkept
      rw [up_skip] at hup
      exact At.skip (n := 2) hup rfl
  · obtain ⟨front, name, rfl, hat⟩ := h.look_name hd hname hpeek
    obtain ⟨c', hpass, hat'⟩ := hat.pass_name (fun hmem => hd (mem_append_right front hmem))
    refine ⟨c', hpass, ?_⟩
    rw [written, resolve_name hname, if_neg hname, append_nil, trail_append]
    simpa using hat'

/-- What has been written, before a slash. -/
def Writes (kept : List (List UInt8)) (out : List UInt8) : Prop := out = trail kept ∨ out = trail kept ++ [slash]

theorem writes_written (kept : List (List UInt8)) (d : List UInt8) :
    Writes (Path.resolveComponent true kept d) (written kept d) := by
  unfold written
  by_cases hd : NamesDirectory d
  · rw [if_pos hd]
    exact .inr rfl
  · rw [if_neg hd, append_nil]
    exact .inl rfl

theorem At.component (h : At c out (slash :: (d ++ tail))) (hout : Writes kept out) (hkept : Path.Resolved true kept)
    (hd : slash ∉ d) (htail : AtEnd tail) : ∃ c', pass 0 c = pass 0 c' ∧ At c' (written kept d) tail := by
  rw [h.pass_slash]
  rcases hout with rfl | rfl
  · exact (h.putSlash (getLast?_trail hkept)).look hkept hd htail
  · exact h.putSlash_again.look hkept hd htail

/-- Some components, and the last one. -/
theorem At.pass_trail {components : List (List UInt8)} {last : List UInt8}
    (h : At c out (trail (components ++ [last]))) (hout : Writes kept out) (hkept : Path.Resolved true kept)
    (hcomponents : ∀ d ∈ components ++ [last], slash ∉ d) :
    At (pass 0 c) (written (components.foldl (Path.resolveComponent true) kept) last) [] := by
  induction components generalizing c out kept with
  | nil =>
    rw [nil_append, trail, flatMap_cons, flatMap_nil] at h
    obtain ⟨c', hpass, hat⟩ := h.component hout hkept (hcomponents last (by simp)) (.inl rfl)
    rw [hpass, hat.pass_nil]
    exact hat
  | cons d components ih =>
    have hd := hcomponents d (by simp)
    rw [cons_append, trail, flatMap_cons, cons_append] at h
    obtain ⟨c', hpass, hat⟩ := h.component hout hkept hd (atEnd_trail _)
    rw [hpass]
    exact ih hat (writes_written kept d) (hkept.resolveComponent hd) fun d hd => hcomponents d (mem_cons_of_mem _ hd)

end Cursors

/-! ## The result -/

open Cursors

variable {kept components : List (List UInt8)} {path workingDirectory d last : List UInt8}

theorem render_eq_trail (h : kept ≠ []) : Path.render true kept = trail kept := by
  show slash :: [slash].intercalate kept = trail kept
  induction kept with
  | nil => exact absurd rfl h
  | cons d kept ih =>
    rw [trail, flatMap_cons]
    cases kept with
    | nil => simp
    | cons e kept =>
      rw [intercalate_cons_of_ne_nil (cons_ne_nil e kept)]
      show _ = slash :: (d ++ trail (e :: kept))
      rw [← ih (cons_ne_nil e kept)]
      simp

theorem splitOn_trail (h : ∀ d ∈ kept, slash ∉ d) (hne : kept ≠ []) : (trail kept).splitOn slash = [] :: kept := by
  rw [← render_eq_trail hne]
  show (slash :: [slash].intercalate kept).splitOn slash = _
  rw [splitOn_cons_eq_if_modifyHead, if_pos (beq_self_eq_true _), splitOn_intercalate slash h hne]

/-- A path that starts at the root has a last component. -/
theorem exists_trail (h : Path.isAbsolute path = true) :
    ∃ components last, path = trail (components ++ [last]) ∧ ∀ d ∈ components ++ [last], slash ∉ d := by
  cases path with
  | nil => cases h
  | cons b text =>
    obtain rfl : b = slash := by simpa [isAbsolute] using h
    obtain ⟨components, last, hsplit⟩ := (eq_nil_or_concat (text.splitOn slash)).resolve_left (splitOn_ne_nil slash text)
    rw [concat_eq_append] at hsplit
    refine ⟨components, last, ?_, ?_⟩
    · rw [← hsplit, ← render_eq_trail (splitOn_ne_nil slash text)]
      show _ = slash :: [slash].intercalate (text.splitOn slash)
      rw [intercalate_splitOn]
    · rw [← hsplit]
      exact fun d hd => notMem_of_mem_splitOn hd

theorem resolved_of_notMem (h : ∀ d ∈ components ++ [last], slash ∉ d) : Path.Resolved true (Path.resolve true components) :=
  resolved_resolve _ fun d hd => h d (mem_append_left _ hd)

theorem normalizedPath_trail (h : ∀ d ∈ components ++ [last], slash ∉ d) :
    normalizedPath (trail (components ++ [last])) = written (Path.resolve true components) last := by
  have hresolve : resolve true ([] :: (components ++ [last])) =
      resolveComponent true (resolve true components) last := by
    unfold resolve
    rw [foldl_cons, foldl_append, resolveComponent_nil]
    rfl
  have hresolved := (resolved_of_notMem h).resolveComponent (h last (by simp))
  have hlast : ([] :: (components ++ [last])).getLast? = some last := getLast?_concat (l := [] :: components)
  unfold normalizedPath written
  simp only
  rw [splitOn_trail h (by simp), hresolve, hlast]
  by_cases hnil : resolveComponent true (resolve true components) last = []
  · -- only the root is left
    have hnames : NamesDirectory last := by
      by_contra hnot
      rw [resolve_name hnot] at hnil
      exact append_ne_nil_of_right_ne_nil _ (cons_ne_nil last []) hnil
    rw [hnil, if_neg (fun h => h.2 rfl), if_pos hnames]
    rfl
  · rw [render_eq_trail hnil]
    by_cases hnames : NamesDirectory last
    · refine (if_pos ⟨⟨last, rfl, hnames⟩, ?_⟩).trans (by rw [if_pos hnames])
      obtain ⟨d, kept, hkept⟩ := exists_cons_of_ne_nil hnil
      rw [hkept] at hresolved ⊢
      obtain ⟨b, d, rfl⟩ := exists_cons_of_ne_nil (hresolved.isComponent d mem_cons_self).1.ne_nil
      exact fun h => nomatch h
    · rw [if_neg hnames, append_nil]
      refine if_neg ?_
      rintro ⟨⟨_, ⟨⟩, hnames'⟩, -⟩
      exact hnames hnames'

theorem rootName_cons {text : List UInt8} (h : text.head? ≠ some slash) : rootName (slash :: text) = [] := by
  have hfirst : firstComponent (slash :: text) = [slash] := by
    unfold firstComponent
    rw [if_neg ?_]
    · exact if_pos rfl
    · rintro ⟨hnet, -, -⟩
      cases text with
      | nil => cases hnet
      | cons b text => exact h (congrArg some (cons.inj (cons.inj hnet).2).1)
  unfold rootName
  rw [hfirst]
  exact if_neg (by decide)

theorem makeAbsolute_cons (workingDirectory : List UInt8) {text : List UInt8} (h : rootName (slash :: text) = []) :
    rootDirectory (slash :: text) ≠ [] ∧ makeAbsolute workingDirectory (slash :: text) = slash :: text := by
  have hnet : ¬ hasNet (firstComponent (slash :: text)) := by
    intro hnet
    unfold rootName at h
    rw [if_pos hnet] at h
    rw [h] at hnet
    exact absurd hnet.1 (by decide)
  have hhead : (firstComponent (slash :: text)).head? = some slash := by
    unfold firstComponent
    split_ifs
    · cases text <;> rfl
    · rfl
    · exact absurd rfl ‹¬ (slash :: text).head? = some slash›
  have hdirectory : rootDirectory (slash :: text) ≠ [] := by
    unfold rootDirectory
    rw [if_neg hnet, if_pos hhead]
    intro hnil
    rw [hnil] at hhead
    cases hhead
  exact ⟨hdirectory, if_pos hdirectory⟩

theorem normalizePath_trail (h : ∀ d ∈ components ++ [last], slash ∉ d)
    (hname : rootName (trail (components ++ [last])) = []) :
    normalizePath workingDirectory (trail (components ++ [last])) =
      some (written (Path.resolve true components) last) := by
  have hstart : At ⟨trail (components ++ [last]), 0, 0⟩ [] (trail (components ++ [last])) := ⟨[], rfl, rfl, rfl⟩
  have hresolved : Path.Resolved true [] := resolved_resolve [] (fun d hd => absurd hd not_mem_nil)
  obtain ⟨gap, htmp, -, hdst⟩ := hstart.pass_trail (.inl rfl) hresolved h
  obtain ⟨text, htext⟩ : ∃ text, trail (components ++ [last]) = slash :: text := by
    cases components <;> exact ⟨_, rfl⟩
  rw [htext] at hname htmp hdst ⊢
  obtain ⟨hdirectory, habsolute⟩ := makeAbsolute_cons workingDirectory hname
  unfold normalizePath
  simp only
  rw [habsolute, if_neg (not_or_intro (cons_ne_nil _ _) hdirectory), hname, length_nil, htmp, hdst, append_nil, take_left]
  rfl

/-- The result has the components that it was made of. -/
theorem written_fixed (h : Path.Resolved true kept) (hd : slash ∉ d) :
    ∃ components last, written kept d = trail (components ++ [last]) ∧ (∀ d ∈ components ++ [last], slash ∉ d) ∧
      rootName (written kept d) = [] ∧ written (Path.resolve true components) last = written kept d := by
  have hroot : ∀ {components last}, Path.Resolved true components → slash ∉ last →
      rootName (trail (components ++ [last])) = [] ∧ ∀ d ∈ components ++ [last], slash ∉ d := by
    intro components last hcomponents hlast
    have hall : ∀ d ∈ components ++ [last], slash ∉ d := by
      intro d hd
      rcases mem_append.mp hd with hd | hd
      · exact (hcomponents.isComponent d hd).1.notMem
      · exact mem_singleton.mp hd ▸ hlast
    refine ⟨?_, hall⟩
    cases components with
    | nil =>
      refine rootName_cons fun (hhead : (last ++ []).head? = some slash) => hlast ?_
      rw [append_nil] at hhead
      exact mem_of_mem_head? hhead
    | cons d components =>
      obtain ⟨hne, -⟩ := (hcomponents.isComponent d mem_cons_self).1
      obtain ⟨b, d, rfl⟩ := exists_cons_of_ne_nil hne
      refine rootName_cons fun hhead => hall (b :: d) mem_cons_self ?_
      obtain rfl : b = slash := Option.some.inj hhead
      exact mem_cons_self
  by_cases hnames : NamesDirectory d
  · have hkept := h.resolveComponent hd
    have hwritten : written kept d = trail (resolveComponent true kept d ++ [[]]) := by
      rw [written, if_pos hnames, trail_append]
    obtain ⟨hname, hall⟩ := hroot hkept not_mem_nil
    refine ⟨_, _, hwritten, hall, hwritten ▸ hname, ?_⟩
    rw [hkept.resolve, hwritten, written, resolveComponent_nil, if_pos (.inl rfl), trail_append]
  · have hwritten : written kept d = trail (kept ++ [d]) := by
      rw [written, if_neg hnames, append_nil, resolve_name hnames]
    obtain ⟨hname, hall⟩ := hroot h hd
    exact ⟨_, _, hwritten, hall, hwritten ▸ hname, by rw [h.resolve]⟩

/-- A path that starts at the root is normalized by the rule, and then it stays as it is. -/
theorem normalizePath_eq (h : Path.isAbsolute path = true) (hname : rootName path = []) :
    normalizePath workingDirectory path = some (normalizedPath path) ∧
      normalizePath workingDirectory (normalizedPath path) = some (normalizedPath path) := by
  obtain ⟨components, last, rfl, hall⟩ := exists_trail h
  rw [normalizedPath_trail hall]
  refine ⟨normalizePath_trail hall hname, ?_⟩
  obtain ⟨components', last', htrail, hall', hname', hfixed⟩ :=
    written_fixed (resolved_of_notMem hall) (hall last (by simp))
  rw [htrail] at hname' hfixed ⊢
  rw [normalizePath_trail hall' hname', hfixed]

theorem normalizePath_eq_of_dots :
    normalizePath [] [47, 97, 47, 46, 46, 47, 98, 47] = some [47, 98, 47] ∧
      normalizePath [] [47, 98, 47] = some [47, 98, 47] :=
  normalizePath_eq (show isAbsolute [47, 97, 47, 46, 46, 47, 98, 47] = true from rfl) (by decide)

end Ninja

end Builra
