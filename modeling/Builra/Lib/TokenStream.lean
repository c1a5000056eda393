import Mathlib.Data.List.AList

/-!
# `Lib.TokenStream` — reading values from a stream of tokens

A reader takes tokens from the front of a stream and may change a state of its own. `Reads read s tokens a`
says that, in the state `s`, it reads `tokens` as `a`, whatever follows, and leaves the state as it is. Readers
compose as the tokens do, so a format is read back if each of its parts is.
-/

namespace TokenStream

open List

variable {τ σ ε α β : Type}

/-- A reader of tokens `τ` with a state `σ` and errors `ε`. -/
abbrev Reader (τ σ ε : Type) := StateT (List τ × σ) (Except ε)

/-- The next token, if it is of the expected kind. -/
def next (expected : τ → Option α) (error : ε) : Reader τ σ ε α := fun (tokens, s) =>
  match tokens.head?.bind expected with
  | some a => .ok (a, (tokens.tail, s))
  | none => .error error

/-- Take the next token if it is `token`. -/
def skip [DecidableEq τ] (token : τ) : Reader τ σ ε Bool := fun (tokens, s) =>
  if tokens.head? = some token then .ok (true, (tokens.tail, s)) else .ok (false, (tokens, s))

/-- A value, or a token that stands for none. -/
def optional [DecidableEq τ] (absent : τ) (read : Reader τ σ ε α) : Reader τ σ ε (Option α) := do
  if ← skip absent then return none
  else
    let a ← read
    return some a

/-- Read `count` values. -/
def times (read : Reader τ σ ε α) : Nat → Reader τ σ ε (List α)
  | 0 => return []
  | count + 1 => do
    let a ← read
    let l ← times read count
    return a :: l

/-- The tokens are read as `a`, whatever follows, and the state stays as it is. -/
def Reads (read : Reader τ σ ε α) (s : σ) (tokens : List τ) (a : α) : Prop :=
  ∀ rest, read.run (tokens ++ rest, s) = .ok (a, (rest, s))

namespace Reads

variable {s : σ} {tokens tokens' : List τ} {a : α} {b : β}

theorem pure (s : σ) (a : α) : Reads (Pure.pure a : Reader τ σ ε α) s [] a := fun _ => rfl

variable {k : α → Reader τ σ ε β} {read : Reader τ σ ε α}

theorem bind (h : Reads read s tokens a) (hk : Reads (k a) s tokens' b) :
    Reads (read >>= k) s (tokens ++ tokens') b := by
  intro rest
  have hrun : (read >>= k).run (tokens ++ (tokens' ++ rest), s) = (k a).run (tokens' ++ rest, s) := by
    rw [StateT.run_bind, h (tokens' ++ rest)]
    rfl
  rw [append_assoc, hrun]
  exact hk rest

/-- A reader of one token, and then another reader. -/
theorem cons {token : τ} (h : Reads read s [token] a) (hk : Reads (k a) s tokens b) :
    Reads (read >>= k) s (token :: tokens) b := h.bind hk

/-- A reader that takes no token, and then another reader. -/
theorem nil (h : Reads read s [] a) (hk : Reads (k a) s tokens b) : Reads (read >>= k) s tokens b := h.bind hk

/-- Nothing is left of the tokens. -/
theorem run (h : Reads read s tokens a) : read.run (tokens, s) = .ok (a, ([], s)) := by
  have hrun := h []
  rwa [append_nil] at hrun

/-- What was read is returned in another form. -/
theorem map (h : Reads read s tokens a) (f : α → β) :
    Reads (f <$> read) s tokens (f a) := by
  have hbind : Reads (read >>= fun x => Pure.pure (f x)) s (tokens ++ []) (f a) := h.bind (pure s (f a))
  rwa [append_nil] at hbind

theorem next {expected : τ → Option α} (error : ε) {token : τ} (h : expected token = some a) :
    Reads (TokenStream.next expected error) s [token] a := by
  intro rest
  show (match (some token).bind expected with
    | some a => Except.ok (a, (rest, s))
    | none => .error error) = _
  rw [Option.bind_some, h]

/-- Values written one after the other; each is read in the form `f` gives it. -/
theorem times {read : Reader τ σ ε β} {write : α → List τ} {f : α → β} (l : List α)
    (h : ∀ a ∈ l, Reads read s (write a) (f a)) :
    Reads (TokenStream.times read l.length) s (l.flatMap write) (l.map f) := by
  induction l with
  | nil => exact pure s []
  | cons a l ih =>
    have hl : Reads (TokenStream.times read l.length) s (l.flatMap write) (l.map f) :=
      ih fun x hx => h x (mem_cons_of_mem a hx)
    have ha : Reads read s (write a) (f a) := h a mem_cons_self
    exact ha.bind (hl.map fun l => f a :: l)

section Optional

variable [DecidableEq τ] {absent : τ} {read : Reader τ σ ε α}

theorem skip (token : τ) : Reads (TokenStream.skip token : Reader τ σ ε Bool) s [token] true := by
  intro rest
  exact if_pos rfl

theorem run_skip_ne {token : τ} (h : token ≠ absent) (rest : List τ) :
    (TokenStream.skip absent : Reader τ σ ε Bool).run (token :: rest, s) = .ok (false, (token :: rest, s)) :=
  if_neg fun hsome => h (Option.some.inj hsome)

theorem optional_none : Reads (optional absent read) s [absent] none := by
  apply bind (k := fun skipped => if skipped then Pure.pure none else do
    let a ← read
    return some a) (skip absent)
  exact pure s none

/-- A value whose first token does not stand for none. -/
theorem optional_some {token : τ} (h : Reads read s (token :: tokens) a) (hne : token ≠ absent) :
    Reads (optional absent read) s (token :: tokens) (some a) := by
  intro rest
  have hrun : (optional absent read).run (token :: tokens ++ rest, s)
      = (some <$> read).run (token :: tokens ++ rest, s) := by
    unfold optional
    rw [StateT.run_bind, cons_append, run_skip_ne hne]
    rfl
  rw [hrun]
  exact h.map some rest

end Optional

end Reads

/-! ## Dictionaries -/

section Dictionary

variable {κ ν : Type} [DecidableEq κ]

/-- The dictionary that pairs make when they are set one after the other. -/
def dictionary (l : List (κ × ν)) : AList (fun _ : κ => ν) :=
  l.foldl (fun d entry => d.insert entry.1 entry.2) ∅

variable {l : List (κ × ν)}

theorem lookup_foldl_insert_of_not_mem {key : κ} (h : key ∉ l.map Prod.fst) (d : AList (fun _ : κ => ν)) :
    (l.foldl (fun d entry => d.insert entry.1 entry.2) d).lookup key = d.lookup key := by
  induction l generalizing d with
  | nil => rfl
  | cons entry l ih =>
    have hne : key ≠ entry.1 := fun heq => h (heq ▸ mem_cons_self)
    have hl : key ∉ l.map Prod.fst := fun hmem => h (mem_cons_of_mem _ hmem)
    rw [foldl_cons, ih hl, AList.lookup_insert_ne hne]

theorem lookup_foldl_insert (h : (l.map Prod.fst).Nodup) {entry : κ × ν} (hmem : entry ∈ l)
    (d : AList (fun _ : κ => ν)) :
    (l.foldl (fun d entry => d.insert entry.1 entry.2) d).lookup entry.1 = some entry.2 := by
  induction l generalizing d with
  | nil => exact absurd hmem not_mem_nil
  | cons first l ih =>
    rw [map_cons, nodup_cons] at h
    rw [foldl_cons]
    cases hmem with
    | head => rw [lookup_foldl_insert_of_not_mem h.1, AList.lookup_insert]
    | tail _ hmem => exact ih h.2 hmem _

theorem lookup_dictionary_of_not_mem {key : κ} (h : key ∉ l.map Prod.fst) :
    (dictionary l).lookup key = none :=
  lookup_foldl_insert_of_not_mem h ∅

/-- With every key only once, each pair is found. -/
theorem lookup_dictionary (h : (l.map Prod.fst).Nodup) {entry : κ × ν} (hmem : entry ∈ l) :
    (dictionary l).lookup entry.1 = some entry.2 :=
  lookup_foldl_insert h hmem ∅

/-- Entries of a dictionary that are renamed and set again, in any order: a key is found under its new name. -/
theorem lookup_dictionary_rename {κ' ν' : Type} [DecidableEq κ'] {d : AList (fun _ : κ => ν)}
    {l : List (Sigma fun _ : κ => ν)} (hl : l.Perm d.entries) (rename : κ → κ') (f : ν → ν')
    (hinj : ∀ k ∈ d, ∀ k' ∈ d, rename k = rename k' → k = k') {key : κ} (hkey : ∀ k ∈ d, rename k = rename key → k = key) :
    (dictionary (l.map fun entry => (rename entry.1, f entry.2))).lookup (rename key) = (d.lookup key).map f := by
  have hkeys : (l.map fun entry => (rename entry.1, f entry.2)).map Prod.fst = (l.map Sigma.fst).map rename := by
    rw [map_map, map_map]
    rfl
  have hmemd : ∀ k, k ∈ l.map Sigma.fst ↔ k ∈ d := fun k => (hl.map Sigma.fst).mem_iff
  cases hlookup : d.lookup key with
  | none =>
    have hnot : key ∉ d := AList.lookup_eq_none.mp hlookup
    apply lookup_dictionary_of_not_mem
    rw [hkeys]
    intro hmem
    obtain ⟨k, hk, heq⟩ := mem_map.mp hmem
    have hkd : k ∈ d := (hmemd k).mp hk
    exact hnot (hkey k hkd heq ▸ hkd)
  | some value =>
    have hnodup : (l.map Sigma.fst).Nodup := (hl.map Sigma.fst).nodup_iff.mpr d.nodupKeys
    have hrenamed : ((l.map fun entry => (rename entry.1, f entry.2)).map Prod.fst).Nodup := by
      rw [hkeys]
      apply hnodup.map_on
      intro k hk k' hk' heq
      exact hinj k ((hmemd k).mp hk) k' ((hmemd k').mp hk') heq
    have hmem : (⟨key, value⟩ : Sigma fun _ : κ => ν) ∈ l := hl.mem_iff.mpr (AList.mem_lookup_iff.mp hlookup)
    have hentry : (rename key, f value) ∈ l.map fun entry => (rename entry.1, f entry.2) :=
      mem_map.mpr ⟨_, hmem, rfl⟩
    exact lookup_dictionary hrenamed hentry

end Dictionary

end TokenStream
