import Mathlib.Data.Finset.Card

namespace Builra

open List Option Function Nat

/-!
# `Util.HeavyCache` — a cache that is pruned to a maximum size

The store below the cache may drop entries whenever it likes, so that the cache has the keys beside it. What the store
drops, the order in which a set is gone through and what the clock reads are a parameter (`World`). An operation is
`none` if its pruning does not end.
-/

/-- What the source does not decide. -/
structure World (Key Instant : Type) [LinearOrder Instant] where
  /-- Whether the store drops a key at a tick. -/
  evicts : Nat → Key → Bool
  /-- The order in which a set is gone through at a tick. -/
  enumerate : Nat → Finset Key → List Key
  mem_enumerate : ∀ tick keys key, key ∈ enumerate tick keys ↔ key ∈ keys
  clock : Nat → Instant
  increasing : StrictMono clock

namespace HeavyCache

structure Entry (Value Instant : Type) where
  value : Value
  /-- The last access timestamp. -/
  accessTime : Instant

end HeavyCache

open HeavyCache (Entry)

/-- The store, and the keys that may be in it. Ticks count how often the store or the clock was used. -/
structure HeavyCache (Key Value Instant : Type) where
  cache : Key → Option (Entry Value Instant) := fun _ => none
  keys : Finset Key := ∅
  maximumSize : Option Nat := none
  ticks : Nat := 0

namespace HeavyCache

variable {Key Value Instant Failure : Type} [DecidableEq Key] [LinearOrder Instant] (world : World Key Instant)

/-! ## The source -/

def currentTime (s : HeavyCache Key Value Instant) : Instant × HeavyCache Key Value Instant :=
  (world.clock s.ticks, { s with ticks := s.ticks + 1 })

/-- Before it is used, the store drops what it likes. -/
def evict (s : HeavyCache Key Value Instant) : HeavyCache Key Value Instant :=
  { s with cache := fun key => if world.evicts s.ticks key then none else s.cache key, ticks := s.ticks + 1 }

/-- `_cache[key]` -/
def lookup (s : HeavyCache Key Value Instant) (key : Key) :
    Option (Entry Value Instant) × HeavyCache Key Value Instant :=
  let s := s.evict world
  (s.cache key, s)

/-- `_cache[key] = entry`, or `_cache.remove(key)` -/
def store (s : HeavyCache Key Value Instant) (key : Key) (entry : Option (Entry Value Instant)) :
    HeavyCache Key Value Instant :=
  let s := s.evict world
  { s with cache := Function.update s.cache key entry }

/-- `entry.accessTime = currentTime()` for the entry of a key, if the store still has it. -/
def touch (s : HeavyCache Key Value Instant) (key : Key) : HeavyCache Key Value Instant :=
  let (time, s) := s.currentTime world
  { s with cache := Function.update s.cache key ((s.cache key).map (fun entry => { entry with accessTime := time })) }

/-- The loop over the keys: a key that the store has dropped, or the oldest entry. -/
def scan : List Key → Option (Key × Entry Value Instant) → HeavyCache Key Value Instant →
    (Key ⊕ Option (Key × Entry Value Instant)) × HeavyCache Key Value Instant
  | [], oldest, s => (.inr oldest, s)
  | key :: rest, oldest, s =>
    match s.lookup world key with
    | (none, s) => (.inl key, s)
    | (some entry, s) =>
      let isOlder := match oldest with
        | none => true
        | some (_, oldestEntry) => decide (oldestEntry.accessTime > entry.accessTime)
      scan rest (if isOlder then some (key, entry) else oldest) s

/-- Prune one item at a time; with the state, the entries that were pruned. -/
def pruneLoop (max : Nat) : Nat → HeavyCache Key Value Instant →
    Option (List (Key × Entry Value Instant) × HeavyCache Key Value Instant)
  | 0, _ => none
  | fuel + 1, s =>
    if s.keys.card > max then
      match scan world (world.enumerate s.ticks s.keys) none s with
      | (.inl key, s) => pruneLoop max fuel ({ s with keys := s.keys.erase key }.store world key none)
      | (.inr none, s) => pruneLoop max fuel s
      | (.inr (some oldest), s) => do
        let (pruned, s) ← pruneLoop max fuel ({ s with keys := s.keys.erase oldest.1 }.store world oldest.1 none)
        some (oldest :: pruned, s)
    else some ([], s)

/-- Enforce the maximum size. A turn of the loop drops a key, so that one more turn than there are keys is enough. -/
def pruneCache (s : HeavyCache Key Value Instant) :
    Option (List (Key × Entry Value Instant) × HeavyCache Key Value Instant) :=
  match s.maximumSize with
  | none => some ([], s)
  | some max => pruneLoop world max (s.keys.card + 1) s

inductive Operation (Key Value Failure : Type) where
  | getOrInsert (key : Key) (body : Except Failure Value)
  | get (key : Key)
  | set (key : Key) (newValue : Option Value)
  | removeAll
  | setMaximumSize (newValue : Option Nat)
  /-- No operation of the cache: the store drops entries. -/
  | evict

inductive Returned (Value Failure : Type) where
  | nothing
  | value (value : Option Value)
  | thrown (failure : Failure)

/-- What an operation returns, the entries it pruned, and the cache after it. -/
structure Outcome (Key Value Instant Failure : Type) where
  returned : Returned Value Failure
  pruned : List (Key × Entry Value Instant) := []
  state : HeavyCache Key Value Instant

/-- Prune the cache before the operation returns. -/
def finish (returned : Returned Value Failure) (s : HeavyCache Key Value Instant) :
    Option (Outcome Key Value Instant Failure) :=
  (s.pruneCache world).map (fun (pruned, s) => { returned, pruned, state := s })

def getOrInsert (s : HeavyCache Key Value Instant) (key : Key) (body : Except Failure Value) :
    Option (Outcome Key Value Instant Failure) :=
  match s.lookup world key with
  | (some entry, s) =>
    finish world (.value (some entry.value)) ({ s with keys := insert key s.keys }.touch world key)
  | (none, s) =>
    match body with
    | .error failure => some { returned := .thrown failure, state := s }
    | .ok value =>
      let (time, s) := s.currentTime world
      let s := s.store world key (some { value, accessTime := time })
      finish world (.value (some value)) ({ s with keys := insert key s.keys }.touch world key)

def get (s : HeavyCache Key Value Instant) (key : Key) : Option (Outcome Key Value Instant Failure) :=
  match s.lookup world key with
  | (some entry, s) => some { returned := .value (some entry.value), state := s.touch world key }
  | (none, s) => some { returned := .value none, state := s }

def set (s : HeavyCache Key Value Instant) (key : Key) :
    Option Value → Option (Outcome Key Value Instant Failure)
  | some newValue =>
    let (time, s) := s.currentTime world
    let s := s.store world key (some { value := newValue, accessTime := time })
    finish world .nothing { s with keys := insert key s.keys }
  | none =>
    let s := s.store world key none
    some { returned := .nothing, state := { s with keys := s.keys.erase key } }

def removeAll (s : HeavyCache Key Value Instant) : HeavyCache Key Value Instant :=
  { s with cache := fun _ => none, keys := ∅ }

def setMaximumSize (s : HeavyCache Key Value Instant) (newValue : Option Nat) :
    Option (Outcome Key Value Instant Failure) :=
  finish world .nothing { s with maximumSize := newValue }

def step (s : HeavyCache Key Value Instant) :
    Operation Key Value Failure → Option (Outcome Key Value Instant Failure)
  | .getOrInsert key body => s.getOrInsert world key body
  | .get key => s.get world key
  | .set key newValue => s.set world key newValue
  | .removeAll => some { returned := .nothing, state := s.removeAll }
  | .setMaximumSize newValue => s.setMaximumSize world newValue
  | .evict => some { returned := .nothing, state := s.evict world }

/-- The cache after a sequence of operations. -/
def run (s : HeavyCache Key Value Instant) : List (Operation Key Value Failure) → Option (HeavyCache Key Value Instant)
  | [] => some s
  | operation :: operations => do
    let outcome ← s.step world operation
    outcome.state.run operations

/-! ## The invariant -/

/-- The keys of the store are known, and its entries were used at different times. -/
structure Sound (s : HeavyCache Key Value Instant) : Prop where
  stored : ∀ key, s.cache key ≠ none → key ∈ s.keys
  past : ∀ key entry, s.cache key = some entry → ∃ tick < s.ticks, entry.accessTime = world.clock tick
  distinct : ∀ key key' entry entry', s.cache key = some entry → s.cache key' = some entry' →
    entry.accessTime = entry'.accessTime → key = key'

/-- The store has only lost entries: those that were pruned, and those that it dropped itself. -/
structure Shrinks (s s' : HeavyCache Key Value Instant) (pruned : List (Key × Entry Value Instant)) : Prop where
  ticks : s.ticks ≤ s'.ticks
  sub : ∀ key entry, s'.cache key = some entry → s.cache key = some entry
  lost : ∀ key entry, s.cache key = some entry → s'.cache key = some entry ∨ (key, entry) ∈ pruned ∨
    ∃ tick, s.ticks ≤ tick ∧ tick < s'.ticks ∧ world.evicts tick key = true
  maximumSize : s'.maximumSize = s.maximumSize

/-- What was pruned was stored before, and is older than all that is left. -/
structure Oldest (s s' : HeavyCache Key Value Instant) (pruned : List (Key × Entry Value Instant)) : Prop where
  stored : ∀ p ∈ pruned, s.cache p.1 = some p.2
  older : ∀ p ∈ pruned, ∀ key entry, s'.cache key = some entry → p.2.accessTime < entry.accessTime

/-- The keys that the store has. -/
def live (s : HeavyCache Key Value Instant) : Finset Key := s.keys.filter (fun key => (s.cache key).isSome)

section

variable {world} {s s' s'' : HeavyCache Key Value Instant} {key : Key}

/-! ## What the store loses -/

omit [DecidableEq Key] in
theorem Shrinks.refl (s : HeavyCache Key Value Instant) : Shrinks world s s [] where
  ticks := le_refl _
  sub := fun _ _ h => h
  lost := fun _ _ h => .inl h
  maximumSize := rfl

variable {pruned : List (Key × Entry Value Instant)} {operation : Operation Key Value Failure}

omit [DecidableEq Key] in
theorem Shrinks.trans {pruned' : List (Key × Entry Value Instant)} (h : Shrinks world s s' pruned)
    (h' : Shrinks world s' s'' pruned') : Shrinks world s s'' (pruned ++ pruned') where
  ticks := h.ticks.trans h'.ticks
  sub := fun key entry hentry => h.sub key entry (h'.sub key entry hentry)
  lost := by
    intro key entry hentry
    rcases h.lost key entry hentry with hentry' | hpruned | ⟨tick, hle, hlt, hevicts⟩
    · rcases h'.lost key entry hentry' with hentry'' | hpruned | ⟨tick, hle, hlt, hevicts⟩
      · exact .inl hentry''
      · exact .inr (.inl (mem_append_right _ hpruned))
      · exact .inr (.inr ⟨tick, h.ticks.trans hle, hlt, hevicts⟩)
    · exact .inr (.inl (mem_append_left _ hpruned))
    · exact .inr (.inr ⟨tick, hle, Nat.lt_of_lt_of_le hlt h'.ticks, hevicts⟩)
  maximumSize := h'.maximumSize.trans h.maximumSize

omit [DecidableEq Key] in
theorem shrinks_evict (world : World Key Instant) (s : HeavyCache Key Value Instant) : Shrinks world s (s.evict world) [] where
  ticks := le_succ _
  sub := by
    intro key entry h
    unfold evict at h
    dsimp only at h
    split_ifs at h
    exact h
  lost := by
    intro key entry h
    unfold evict
    dsimp only
    by_cases hevicts : world.evicts s.ticks key = true
    · exact .inr (.inr ⟨s.ticks, le_refl _, lt_succ_self _, hevicts⟩)
    · rw [if_neg hevicts]
      exact .inl h
  maximumSize := rfl

@[simp] theorem store_self (s : HeavyCache Key Value Instant) (key : Key) (entry : Option (Entry Value Instant)) :
    (s.store world key entry).cache key = entry := by
  show update (s.evict world).cache key entry key = entry
  rw [update_self]

theorem store_of_ne (s : HeavyCache Key Value Instant) {key k : Key} (h : k ≠ key)
    (entry : Option (Entry Value Instant)) : (s.store world key entry).cache k = (s.evict world).cache k := by
  show update (s.evict world).cache key entry k = (s.evict world).cache k
  rw [update_of_ne h]

/-- A key is removed whose entry, if there is one, is among those that were pruned. -/
theorem shrinks_remove (world : World Key Instant) (h : ∀ entry, s.cache key = some entry → (key, entry) ∈ pruned) :
    Shrinks world s ({ s with keys := s.keys.erase key }.store world key none) pruned := by
  have hevict := shrinks_evict world s
  refine ⟨hevict.ticks, fun k entry hentry => ?_, fun k entry hentry => ?_, rfl⟩
  · have hne : k ≠ key := by
      rintro rfl
      rw [store_self] at hentry
      cases hentry
    rw [store_of_ne _ hne] at hentry
    exact hevict.sub k entry hentry
  · by_cases hkey : k = key
    · subst hkey
      exact .inr (.inl (h entry hentry))
    · rw [store_of_ne _ hkey]
      rcases hevict.lost k entry hentry with hleft | hpruned | hevicts
      · exact .inl hleft
      · exact absurd hpruned not_mem_nil
      · exact .inr (.inr hevicts)

omit [DecidableEq Key] in
/-- What loses entries stays sound, as long as the keys of those that are left are known. -/
theorem Sound.shrinks (h : Sound world s) (hs : Shrinks world s s' pruned)
    (hkeys : ∀ key, s'.cache key ≠ none → key ∈ s'.keys) : Sound world s' where
  stored := hkeys
  past := by
    intro key entry hentry
    obtain ⟨tick, hlt, htime⟩ := h.past key entry (hs.sub key entry hentry)
    exact ⟨tick, Nat.lt_of_lt_of_le hlt hs.ticks, htime⟩
  distinct := fun key key' entry entry' hentry hentry' =>
    h.distinct key key' entry entry' (hs.sub key entry hentry) (hs.sub key' entry' hentry')

omit [DecidableEq Key] in
theorem Shrinks.stored (hs : Shrinks world s s' pruned) (h : Sound world s) (hkey : s'.cache key ≠ none) :
    key ∈ s.keys := by
  obtain ⟨entry, hentry⟩ := ne_none_iff_exists'.mp hkey
  apply h.stored
  rw [hs.sub key entry hentry]
  exact some_ne_none entry

/-! ## Pruning -/

omit [DecidableEq Key] in
/-- The loop over the keys ends at a key that the store has dropped, or at an entry that is not younger than those of
all keys. -/
theorem scan_spec (world : World Key Instant) (keys : List Key) :
    ∀ (oldest : Option (Key × Entry Value Instant)) (s : HeavyCache Key Value Instant),
    (∃ key s', scan world keys oldest s = (.inl key, s') ∧ key ∈ keys ∧ s'.cache key = none ∧ s'.keys = s.keys ∧
        Shrinks world s s' []) ∨
      ∃ oldest' s', scan world keys oldest s = (.inr oldest', s') ∧ s'.keys = s.keys ∧ Shrinks world s s' [] ∧
        (oldest' = none → keys = [] ∧ oldest = none) ∧
        ∀ o, oldest' = some o → (oldest = some o ∨ (o.1 ∈ keys ∧ s.cache o.1 = some o.2)) ∧
          (∀ o₀, oldest = some o₀ → o.2.accessTime ≤ o₀.2.accessTime) ∧
          ∀ key ∈ keys, ∀ entry, s'.cache key = some entry → o.2.accessTime ≤ entry.accessTime := by
  induction keys with
  | nil =>
    intro oldest s
    refine .inr ⟨oldest, s, rfl, rfl, Shrinks.refl s, fun hnone => ⟨rfl, hnone⟩, fun o ho => ⟨.inl ho, ?_, ?_⟩⟩
    · intro o₀ ho₀
      cases ho.symm.trans ho₀
      exact le_refl _
    · exact fun key hkey => absurd hkey not_mem_nil
  | cons key rest ih =>
    intro oldest s
    have hevict := shrinks_evict world s
    unfold scan lookup
    dsimp only
    cases hentry : (s.evict world).cache key with
    | none => exact .inl ⟨key, s.evict world, rfl, mem_cons_self, hentry, rfl, hevict⟩
    | some entry =>
      dsimp only
      -- the older one of the entry and the oldest so far
      obtain ⟨o', ho', hfrom, hle, hle₀⟩ : ∃ o', (if (match oldest with
            | none => true
            | some (_, oldestEntry) => decide (oldestEntry.accessTime > entry.accessTime)) = true
          then some (key, entry) else oldest) = some o' ∧ (o' = (key, entry) ∨ oldest = some o') ∧
          o'.2.accessTime ≤ entry.accessTime ∧ ∀ o₀, oldest = some o₀ → o'.2.accessTime ≤ o₀.2.accessTime := by
        cases oldest with
        | none => exact ⟨(key, entry), rfl, .inl rfl, le_refl _, fun o₀ ho₀ => by cases ho₀⟩
        | some o =>
          by_cases hlt : o.2.accessTime > entry.accessTime
          · refine ⟨(key, entry), if_pos (decide_eq_true hlt), .inl rfl, le_refl _, fun o₀ ho₀ => ?_⟩
            cases ho₀
            exact le_of_lt hlt
          · refine ⟨o, if_neg (fun h => hlt (of_decide_eq_true h)), .inr rfl, not_lt.mp hlt, fun o₀ ho₀ => ?_⟩
            cases ho₀
            exact le_refl _
      rw [ho']
      rcases ih (some o') (s.evict world) with ⟨k, s', hscan, hk, hnone, hkeys, hshrinks⟩ |
        ⟨oldest', s', hscan, hkeys, hshrinks, hnone, hsome⟩
      · exact .inl ⟨k, s', hscan, mem_cons_of_mem _ hk, hnone, hkeys, hevict.trans hshrinks⟩
      · refine .inr ⟨oldest', s', hscan, hkeys, hevict.trans hshrinks, fun h => ?_, fun o ho => ?_⟩
        · exact absurd (hnone h).2 (some_ne_none o')
        · obtain ⟨horigin, hleast, hrest⟩ := hsome o ho
          refine ⟨?_, fun o₀ ho₀ => (hleast o' rfl).trans (hle₀ o₀ ho₀), fun k hk e he => ?_⟩
          · rcases horigin with heq | ⟨hmem, hcache⟩
            · cases heq
              rcases hfrom with rfl | hfrom
              · exact .inr ⟨mem_cons_self, hevict.sub key entry hentry⟩
              · exact .inl hfrom
            · exact .inr ⟨mem_cons_of_mem _ hmem, hevict.sub _ _ hcache⟩
          · rcases mem_cons.mp hk with rfl | hk
            · obtain rfl : entry = e := some.inj (hentry.symm.trans (hshrinks.sub k e he))
              exact (hleast o' rfl).trans hle
            · exact hrest k hk e he

omit [DecidableEq Key] in
theorem Oldest.nil (s s' : HeavyCache Key Value Instant) : Oldest s s' [] where
  stored _ hp := absurd hp not_mem_nil
  older _ hp := absurd hp not_mem_nil

/-- What pruning leaves: no more keys than the maximum, and of what it pruned, nothing as young as what is left. -/
theorem pruneLoop_spec (max fuel : Nat) : ∀ {s : HeavyCache Key Value Instant}, Sound world s → s.keys.card < fuel →
    ∃ pruned s', pruneLoop world max fuel s = some (pruned, s') ∧ Sound world s' ∧ s'.keys.card ≤ max ∧
      Shrinks world s s' pruned ∧ Oldest s s' pruned := by
  induction fuel with
  | zero => exact fun _ hfuel => absurd hfuel (not_lt_zero _)
  | succ fuel ih =>
    intro s h hfuel
    unfold pruneLoop
    by_cases hmax : s.keys.card > max
    · rw [if_pos hmax]
      -- a turn that removes a known key
      have hturn : ∀ {key} {s' : HeavyCache Key Value Instant} (gone : List (Key × Entry Value Instant)), key ∈ s.keys →
          s'.keys = s.keys → Shrinks world s s' [] → (∀ entry, s'.cache key = some entry → (key, entry) ∈ gone) →
          ∃ pruned s'', pruneLoop world max fuel ({ s' with keys := s'.keys.erase key }.store world key none) =
              some (pruned, s'') ∧ Sound world s'' ∧ s''.keys.card ≤ max ∧ Shrinks world s s'' (gone ++ pruned) ∧
            Oldest s s'' pruned ∧ ∀ k entry, s''.cache k = some entry → k ≠ key ∧ s'.cache k = some entry := by
        intro key s' gone hkey hkeys hshrinks hgone
        have hremove := shrinks_remove world hgone
        have hall := hshrinks.trans hremove
        have hgone' : ∀ k entry, ({ s' with keys := s'.keys.erase key }.store world key none).cache k = some entry →
            k ≠ key := by
          rintro k entry hentry rfl
          rw [store_self] at hentry
          cases hentry
        have hstored : ∀ k, ({ s' with keys := s'.keys.erase key }.store world key none).cache k ≠ none →
            k ∈ s'.keys.erase key := by
          intro k hk
          obtain ⟨entry, hentry⟩ := ne_none_iff_exists'.mp hk
          rw [hkeys]
          exact Finset.mem_erase.mpr ⟨hgone' k entry hentry, hall.stored h hk⟩
        have hcard : (s'.keys.erase key).card < fuel := by
          rw [hkeys, Finset.card_erase_of_mem hkey]
          have hpos := Finset.card_pos.mpr ⟨key, hkey⟩
          omega
        obtain ⟨pruned, s'', hloop, hsound, hle, hshrinks', hyoung⟩ := ih (h.shrinks hall hstored) hcard
        refine ⟨pruned, s'', hloop, hsound, hle, hall.trans hshrinks',
          ⟨fun p hp => hall.sub _ _ (hyoung.stored p hp), hyoung.older⟩, fun k entry hentry => ?_⟩
        have hentry' := hshrinks'.sub k entry hentry
        exact ⟨hgone' k entry hentry', hremove.sub k entry hentry'⟩
      rcases scan_spec world (world.enumerate s.ticks s.keys) none s with
        ⟨key, s', hscan, hkey, hnone, hkeys, hshrinks⟩ | ⟨oldest, s', hscan, hkeys, hshrinks, hnone, hsome⟩
      · rw [hscan]
        have hknown : key ∈ s.keys := (world.mem_enumerate _ _ _).mp hkey
        obtain ⟨pruned, s'', hloop, hsound, hle, hshrinks', hyoung, -⟩ := hturn [] hknown hkeys hshrinks
          (fun entry hentry => by rw [hnone] at hentry; cases hentry)
        exact ⟨pruned, s'', hloop, hsound, hle, hshrinks', hyoung⟩
      · rw [hscan]
        cases oldest with
        | none =>
          -- there are keys to go through
          obtain ⟨key, hkey⟩ := Finset.card_pos.mp (Nat.lt_of_le_of_lt (zero_le max) hmax)
          have hmem := (world.mem_enumerate s.ticks s.keys key).mpr hkey
          rw [(hnone rfl).1] at hmem
          exact absurd hmem not_mem_nil
        | some o =>
          obtain ⟨horigin, -, hleast⟩ := hsome o rfl
          rcases horigin with hfalse | ⟨hmem, hcache⟩
          · exact absurd hfalse.symm (some_ne_none o)
          · have hknown : o.1 ∈ s.keys := (world.mem_enumerate _ _ _).mp hmem
            obtain ⟨pruned, s'', hloop, hsound, hle, hshrinks', hyoung, hleft⟩ := hturn [o] hknown hkeys hshrinks
              (fun entry hentry => by
                have heq := hshrinks.sub _ _ hentry
                rw [hcache] at heq
                rw [← some.inj heq]
                exact mem_singleton_self o)
            refine ⟨o :: pruned, s'', ?_, hsound, hle, hshrinks', fun p hp => ?_, fun p hp key entry hentry => ?_⟩
            · dsimp only
              rw [hloop]
              rfl
            · rcases mem_cons.mp hp with rfl | hp
              · exact hcache
              · exact hyoung.stored p hp
            · rcases mem_cons.mp hp with rfl | hp
              · obtain ⟨hne, hentry'⟩ := hleft key entry hentry
                have hentry₀ := hshrinks.sub key entry hentry'
                have hkey : key ∈ world.enumerate s.ticks s.keys := by
                  rw [world.mem_enumerate]
                  apply h.stored
                  rw [hentry₀]
                  exact some_ne_none entry
                refine lt_of_le_of_ne (hleast key hkey entry hentry') (fun heq => ?_)
                exact hne (h.distinct key p.1 entry p.2 hentry₀ hcache heq.symm)
              · exact hyoung.older p hp key entry hentry
    · rw [if_neg hmax]
      exact ⟨[], s, rfl, h, Nat.not_lt.mp hmax, Shrinks.refl s, .nil s s⟩

/-! ## The operations -/

/-- The key set is not larger than the maximum size. -/
def Bounded (s : HeavyCache Key Value Instant) : Prop := ∀ max, s.maximumSize = some max → s.keys.card ≤ max

theorem pruneCache_spec (h : Sound world s) :
    ∃ pruned s', s.pruneCache world = some (pruned, s') ∧ Sound world s' ∧ Bounded s' ∧ Shrinks world s s' pruned ∧
      Oldest s s' pruned := by
  unfold pruneCache
  cases hmax : s.maximumSize with
  | none =>
    refine ⟨[], s, rfl, h, fun max hsome => ?_, Shrinks.refl s, .nil s s⟩
    rw [hmax] at hsome
    cases hsome
  | some max =>
    obtain ⟨pruned, s', hloop, hsound, hle, hshrinks, hyoung⟩ := pruneLoop_spec max (s.keys.card + 1) h
      (lt_succ_self _)
    refine ⟨pruned, s', hloop, hsound, fun max' hsome => ?_, hshrinks, hyoung⟩
    rw [hshrinks.maximumSize, hmax] at hsome
    rw [← some.inj hsome]
    exact hle

/-- Only the entry of one key is new, and nothing else is lost than what the store dropped. -/
structure Follows (world : World Key Instant) (key : Key) (s s' : HeavyCache Key Value Instant) : Prop where
  ticks : s.ticks ≤ s'.ticks
  other : ∀ k entry, k ≠ key → s'.cache k = some entry → s.cache k = some entry
  lost : ∀ k entry, k ≠ key → s.cache k = some entry → s'.cache k = some entry ∨
    ∃ tick, s.ticks ≤ tick ∧ tick < s'.ticks ∧ world.evicts tick k = true
  own : s.cache key ≠ none → s'.cache key ≠ none ∨
    ∃ tick, s.ticks ≤ tick ∧ tick < s'.ticks ∧ world.evicts tick key = true

omit [DecidableEq Key] in
theorem Follows.refl (key : Key) (s : HeavyCache Key Value Instant) : Follows world key s s where
  ticks := le_refl _
  other := fun _ _ _ h => h
  lost := fun _ _ _ h => .inl h
  own := .inl

omit [DecidableEq Key] in
theorem Follows.evict (h : Follows world key s s') : Follows world key s (s'.evict world) where
  ticks := h.ticks.trans (le_succ _)
  other := fun k entry hne hentry => h.other k entry hne ((shrinks_evict world s').sub k entry hentry)
  lost := by
    intro k entry hne hentry
    rcases h.lost k entry hne hentry with hentry' | ⟨tick, hle, hlt, hevicts⟩
    · rcases (shrinks_evict world s').lost k entry hentry' with hentry'' | hpruned | ⟨tick, hle, hlt, hevicts⟩
      · exact .inl hentry''
      · exact absurd hpruned not_mem_nil
      · exact .inr ⟨tick, h.ticks.trans hle, hlt, hevicts⟩
    · exact .inr ⟨tick, hle, lt_succ_of_lt hlt, hevicts⟩
  own := by
    intro hne
    rcases h.own hne with hne' | ⟨tick, hle, hlt, hevicts⟩
    · obtain ⟨entry, hentry⟩ := ne_none_iff_exists'.mp hne'
      rcases (shrinks_evict world s').lost key entry hentry with hentry' | hpruned | ⟨tick, hle, hlt, hevicts⟩
      · rw [hentry']
        exact .inl (some_ne_none entry)
      · exact absurd hpruned not_mem_nil
      · exact .inr ⟨tick, h.ticks.trans hle, hlt, hevicts⟩
    · exact .inr ⟨tick, hle, lt_succ_of_lt hlt, hevicts⟩

/-- The entry of the key changes, and time goes on. -/
theorem Follows.update (h : Follows world key s s') {entry : Option (Entry Value Instant)}
    (hentry : s'.cache key ≠ none → entry ≠ none) {ticks : Nat} (hticks : s'.ticks ≤ ticks) (keys : Finset Key)
    (maximumSize : Option Nat) :
    Follows world key s { cache := Function.update s'.cache key entry, keys, maximumSize, ticks } where
  ticks := h.ticks.trans hticks
  other := by
    intro k e hne he
    dsimp only at he
    rw [update_of_ne hne] at he
    exact h.other k e hne he
  lost := by
    intro k e hne he
    dsimp only
    rw [update_of_ne hne]
    rcases h.lost k e hne he with he' | ⟨tick, hle, hlt, hevicts⟩
    · exact .inl he'
    · exact .inr ⟨tick, hle, Nat.lt_of_lt_of_le hlt hticks, hevicts⟩
  own := by
    intro hne
    dsimp only
    rw [update_self]
    rcases h.own hne with hne' | ⟨tick, hle, hlt, hevicts⟩
    · exact .inl (hentry hne')
    · exact .inr ⟨tick, hle, Nat.lt_of_lt_of_le hlt hticks, hevicts⟩

/-- The entry of the key has a time that was read since. -/
def UsedSince (world : World Key Instant) (key : Key) (s s' : HeavyCache Key Value Instant) : Prop :=
  ∀ entry, s'.cache key = some entry → ∃ tick, s.ticks ≤ tick ∧ tick < s'.ticks ∧ entry.accessTime = world.clock tick

/-- A cache in which one key was used anew. -/
theorem Sound.follows (h : Sound world s) (hfollows : Follows world key s s') (hown : UsedSince world key s s')
    (hkeys : ∀ k, k ∈ s.keys → k ∈ s'.keys) (hkey : s'.cache key ≠ none → key ∈ s'.keys) : Sound world s' where
  stored := by
    intro k hne
    by_cases hk : k = key
    · subst hk
      exact hkey hne
    · obtain ⟨entry, hentry⟩ := ne_none_iff_exists'.mp hne
      apply hkeys
      apply h.stored
      rw [hfollows.other k entry hk hentry]
      exact some_ne_none entry
  past := by
    intro k entry hentry
    by_cases hk : k = key
    · subst hk
      obtain ⟨tick, -, hlt, htime⟩ := hown entry hentry
      exact ⟨tick, hlt, htime⟩
    · obtain ⟨tick, hlt, htime⟩ := h.past k entry (hfollows.other k entry hk hentry)
      exact ⟨tick, Nat.lt_of_lt_of_le hlt hfollows.ticks, htime⟩
  distinct := by
    -- the time of the key was read after all others
    have hlater : ∀ k entry entry', k ≠ key → s'.cache k = some entry → s'.cache key = some entry' →
        entry.accessTime ≠ entry'.accessTime := by
      intro k entry entry' hk hentry hentry'
      obtain ⟨tick, hlt, htime⟩ := h.past k entry (hfollows.other k entry hk hentry)
      obtain ⟨tick', hle, -, htime'⟩ := hown entry' hentry'
      rw [htime, htime']
      exact (world.increasing (Nat.lt_of_lt_of_le hlt hle)).ne
    intro k k' entry entry' hentry hentry' heq
    by_cases hk : k = key
    · by_cases hk' : k' = key
      · rw [hk, hk']
      · rw [hk] at hentry
        exact absurd heq.symm (hlater k' entry' entry hk' hentry' hentry)
    · by_cases hk' : k' = key
      · rw [hk'] at hentry'
        exact absurd heq (hlater k entry entry' hk hentry hentry')
      · exact h.distinct k k' entry entry' (hfollows.other k entry hk hentry) (hfollows.other k' entry' hk' hentry') heq

/-- Whether an operation uses a key. -/
def Operation.Uses (key : Key) : Operation Key Value Failure → Prop
  | .getOrInsert k _ => k = key
  | .get k => k = key
  | .set k newValue => k = key ∧ newValue ≠ none
  | .removeAll => False
  | .setMaximumSize _ => False
  | .evict => False

/-- Whether an operation removes a key. -/
def Operation.Removes (key : Key) : Operation Key Value Failure → Prop
  | .set k newValue => k = key ∧ newValue = none
  | .removeAll => True
  | .getOrInsert _ _ => False
  | .get _ => False
  | .setMaximumSize _ => False
  | .evict => False

/-- The access time of an entry was read by the last operation that used its key. -/
def LastUsed (world : World Key Instant) (s : HeavyCache Key Value Instant) (operation : Operation Key Value Failure)
    (key : Key) (entry : Entry Value Instant) : Prop :=
  (operation.Uses key ∧ ∃ tick, s.ticks ≤ tick ∧ entry.accessTime = world.clock tick) ∨
    (¬ operation.Uses key ∧ s.cache key = some entry)

/-- What holds after an operation. -/
structure Kept (world : World Key Instant) (s : HeavyCache Key Value Instant)
    (operation : Operation Key Value Failure) (outcome : Outcome Key Value Instant Failure) : Prop where
  sound : Sound world outcome.state
  bounded : Bounded outcome.state
  /-- Of what was pruned, nothing was used as late as what is left. -/
  oldest : ∀ p ∈ outcome.pruned, ∀ key entry, outcome.state.cache key = some entry →
    p.2.accessTime < entry.accessTime
  used : ∀ key entry, outcome.state.cache key = some entry → LastUsed world s operation key entry
  /-- What was pruned was stored, with the time of its last use. -/
  pruned : ∀ p ∈ outcome.pruned, LastUsed world s operation p.1 p.2
  /-- What is gone was pruned, dropped by the store or removed. -/
  gone : ∀ key, s.cache key ≠ none → outcome.state.cache key ≠ none ∨ (∃ entry, (key, entry) ∈ outcome.pruned) ∨
    (∃ tick, s.ticks ≤ tick ∧ tick < outcome.state.ticks ∧ world.evicts tick key = true) ∨ operation.Removes key
  /-- What throws changes nothing; the store may have dropped entries. -/
  thrown : ∀ failure, outcome.returned = .thrown failure → outcome.state = s.evict world

omit [DecidableEq Key] in
theorem Follows.congr (h : Follows world key s s') (hcache : s''.cache = s'.cache) (hticks : s'.ticks ≤ s''.ticks) :
    Follows world key s s'' where
  ticks := h.ticks.trans hticks
  other := by
    rw [hcache]
    exact h.other
  lost := by
    intro k entry hne hentry
    rw [hcache]
    rcases h.lost k entry hne hentry with hentry' | ⟨tick, hle, hlt, hevicts⟩
    · exact .inl hentry'
    · exact .inr ⟨tick, hle, Nat.lt_of_lt_of_le hlt hticks, hevicts⟩
  own := by
    intro hne
    rw [hcache]
    rcases h.own hne with hne' | ⟨tick, hle, hlt, hevicts⟩
    · exact .inl hne'
    · exact .inr ⟨tick, hle, Nat.lt_of_lt_of_le hlt hticks, hevicts⟩

/-- The time of an entry that is touched was just read. -/
theorem Follows.touch (h : Follows world key s s') :
    Follows world key s (s'.touch world key) ∧ UsedSince world key s (s'.touch world key) := by
  constructor
  · refine h.update (fun hne => ?_) (le_succ _) s'.keys s'.maximumSize
    obtain ⟨entry, hentry⟩ := ne_none_iff_exists'.mp hne
    show (s'.cache key).map _ ≠ none
    rw [hentry]
    exact some_ne_none _
  · intro entry hentry
    refine ⟨s'.ticks, h.ticks, lt_succ_self _, ?_⟩
    unfold HeavyCache.touch currentTime at hentry
    dsimp only at hentry
    rw [update_self] at hentry
    obtain ⟨entry', -, rfl⟩ := map_eq_some_iff.mp hentry
    rfl

omit [DecidableEq Key] in
/-- Pruning at the end of an operation, or none, keeps what holds before it. -/
theorem Kept.of_shrinks {outcome : Outcome Key Value Instant Failure} (hticks : s.ticks ≤ s'.ticks)
    (hused : ∀ key entry, s'.cache key = some entry → LastUsed world s operation key entry) (hgone : ∀ key, s.cache key ≠ none → s'.cache key ≠ none ∨
      (∃ tick, s.ticks ≤ tick ∧ tick < s'.ticks ∧ world.evicts tick key = true) ∨ operation.Removes key)
    (hshrinks : Shrinks world s' outcome.state outcome.pruned) (hsound : Sound world outcome.state)
    (hbounded : Bounded outcome.state)
    (holdest : Oldest s' outcome.state outcome.pruned)
    (hthrown : ∀ failure, outcome.returned = .thrown failure → outcome.state = s.evict world) :
    Kept world s operation outcome where
  sound := hsound
  bounded := hbounded
  oldest := holdest.older
  used := fun key entry hentry => hused key entry (hshrinks.sub key entry hentry)
  pruned := fun p hp => hused p.1 p.2 (holdest.stored p hp)
  gone := by
    intro key hne
    rcases hgone key hne with hne' | ⟨tick, hle, hlt, hevicts⟩ | hremoves
    · obtain ⟨entry, hentry⟩ := ne_none_iff_exists'.mp hne'
      rcases hshrinks.lost key entry hentry with hleft | hpruned | ⟨tick, hle, hlt, hevicts⟩
      · rw [hleft]
        exact .inl (some_ne_none entry)
      · exact .inr (.inl ⟨entry, hpruned⟩)
      · exact .inr (.inr (.inl ⟨tick, hticks.trans hle, hlt, hevicts⟩))
    · exact .inr (.inr (.inl ⟨tick, hle, Nat.lt_of_lt_of_le hlt hshrinks.ticks, hevicts⟩))
    · exact .inr (.inr (.inr hremoves))
  thrown := hthrown

/-- The same for an operation that uses one key. -/
theorem Kept.of_follows {outcome : Outcome Key Value Instant Failure} (hfollows : Follows world key s s')
    (huses : ∀ k, operation.Uses k ↔ k = key) (hown : UsedSince world key s s')
    (hshrinks : Shrinks world s' outcome.state outcome.pruned) (hsound : Sound world outcome.state)
    (hbounded : Bounded outcome.state)
    (holdest : Oldest s' outcome.state outcome.pruned)
    (hthrown : ∀ failure, outcome.returned = .thrown failure → outcome.state = s.evict world) :
    Kept world s operation outcome := by
  refine Kept.of_shrinks hfollows.ticks (fun k entry hentry => ?_) (fun k hne => ?_) hshrinks hsound hbounded holdest
    hthrown
  · by_cases hk : k = key
    · subst hk
      obtain ⟨tick, hle, -, htime⟩ := hown entry hentry
      exact .inl ⟨(huses k).mpr rfl, tick, hle, htime⟩
    · exact .inr ⟨fun h => hk ((huses k).mp h), hfollows.other k entry hk hentry⟩
  · by_cases hk : k = key
    · subst hk
      rcases hfollows.own hne with hne' | hevicts
      · exact .inl hne'
      · exact .inr (.inl hevicts)
    · obtain ⟨entry, hentry⟩ := ne_none_iff_exists'.mp hne
      rcases hfollows.lost k entry hk hentry with hentry' | hevicts
      · rw [hentry']
        exact .inl (some_ne_none entry)
      · exact .inr (.inl hevicts)

section

variable (h : Sound world s)
include h

/-- An operation that uses a key, knows it from then on, and prunes. -/
theorem finish_kept {returned : Returned Value Failure} (hfollows : Follows world key s s')
    (huses : ∀ k, operation.Uses k ↔ k = key) (hown : UsedSince world key s s')
    (hkeys : s'.keys = insert key s.keys) (hreturned : ∀ failure, returned ≠ .thrown failure) :
    ∃ outcome, finish world returned s' = some outcome ∧ Kept world s operation outcome := by
  have hsound : Sound world s' := by
    refine h.follows hfollows hown (fun k hk => ?_) (fun _ => ?_)
    · rw [hkeys]
      exact Finset.mem_insert_of_mem hk
    · rw [hkeys]
      exact Finset.mem_insert_self key s.keys
  obtain ⟨pruned, s'', hprune, hsound', hbounded, hshrinks, hyoung⟩ := pruneCache_spec hsound
  refine ⟨{ returned, pruned, state := s'' }, ?_, ?_⟩
  · unfold finish
    rw [hprune]
    rfl
  · exact Kept.of_follows hfollows huses hown hshrinks hsound' hbounded hyoung
      (fun failure heq => absurd heq (hreturned failure))

section

variable (hb : Bounded s)
include hb

/-- After a lookup that finds nothing, nothing is new: the store may have dropped entries. -/
theorem Kept.of_miss (returned : Returned Value Failure)
    (huses : ∀ k, operation.Uses k ↔ k = key) (hmiss : (s.evict world).cache key = none) :
    Kept world s operation { returned, pruned := [], state := s.evict world } := by
  have hevict := shrinks_evict world s
  have hnone : UsedSince world key s (s.evict world) := by
    intro entry hsome
    rw [hmiss] at hsome
    cases hsome
  exact Kept.of_follows (Follows.refl key s).evict huses hnone (Shrinks.refl _)
    (h.shrinks hevict (fun k hk => hevict.stored h hk)) hb (.nil _ _) (fun _ _ => rfl)

theorem getOrInsert_kept (key : Key) (body : Except Failure Value) :
    ∃ outcome, s.getOrInsert world key body = some outcome ∧ Kept world s (.getOrInsert key body) outcome := by
  have huses : ∀ k, (Operation.getOrInsert key body : Operation Key Value Failure).Uses k ↔ k = key := fun k => eq_comm
  have hlookup : Follows world key s (s.evict world) := (Follows.refl key s).evict
  unfold getOrInsert lookup
  dsimp only
  cases hentry : (s.evict world).cache key with
  | some entry =>
    have hinsert : Follows world key s { s.evict world with keys := insert key s.keys } :=
      hlookup.congr rfl (le_refl _)
    obtain ⟨htouch, hown⟩ := hinsert.touch
    exact finish_kept h htouch huses hown rfl (fun failure heq => by cases heq)
  | none =>
    cases body with
    | error failure => exact ⟨_, rfl, Kept.of_miss h hb _ huses hentry⟩
    | ok value =>
      have htime : Follows world key s { s.evict world with ticks := (s.evict world).ticks + 1 } :=
        hlookup.congr rfl (le_succ _)
      let entry : Entry Value Instant := { value, accessTime := world.clock (s.evict world).ticks }
      have hstore := htime.evict.update (fun _ => some_ne_none entry) (le_refl _) (insert key s.keys)
        s.maximumSize
      obtain ⟨htouch, hown⟩ := hstore.touch
      exact finish_kept h htouch huses hown rfl (fun failure heq => by cases heq)

theorem get_kept (key : Key) :
    ∃ outcome, s.get world key = some outcome ∧
      Kept world s (.get key : Operation Key Value Failure) outcome := by
  have huses : ∀ k, (Operation.get key : Operation Key Value Failure).Uses k ↔ k = key := fun k => eq_comm
  have hlookup : Follows world key s (s.evict world) := (Follows.refl key s).evict
  have hevict := shrinks_evict world s
  unfold get lookup
  dsimp only
  cases hentry : (s.evict world).cache key with
  | some entry =>
    obtain ⟨htouch, hown⟩ := hlookup.touch
    have hknown : key ∈ s.keys := by
      apply hevict.stored h
      rw [hentry]
      exact some_ne_none entry
    refine ⟨_, rfl, Kept.of_follows htouch huses hown (Shrinks.refl _) ?_ hb
      (.nil _ _) (fun failure heq => by cases heq)⟩
    exact h.follows htouch hown (fun k hk => hk) (fun _ => hknown)
  | none => exact ⟨_, rfl, Kept.of_miss h hb _ huses hentry⟩

theorem set_kept (key : Key) (newValue : Option Value) :
    ∃ outcome, s.set world key newValue = some outcome ∧
      Kept world s (.set key newValue : Operation Key Value Failure) outcome := by
  unfold set
  cases newValue with
  | some value =>
    have huses : ∀ k, (Operation.set key (some value) : Operation Key Value Failure).Uses k ↔ k = key :=
      fun k => ⟨fun h => h.1.symm, fun h => ⟨h.symm, some_ne_none value⟩⟩
    have htime : Follows world key s { s with ticks := s.ticks + 1 } := (Follows.refl key s).congr rfl (le_succ _)
    let entry : Entry Value Instant := { value, accessTime := world.clock s.ticks }
    have hstore := htime.evict.update (fun _ => some_ne_none entry) (le_refl _) (insert key s.keys)
      s.maximumSize
    refine finish_kept h hstore huses (fun entry' hentry => ?_) rfl (fun failure heq => by cases heq)
    dsimp only at hentry
    rw [store_self] at hentry
    refine ⟨s.ticks, le_refl _, ?_, by rw [← some.inj hentry]⟩
    show s.ticks < s.ticks + 1 + 1
    omega
  | none =>
    have hshrinks : Shrinks world s { s.store world key none with keys := s.keys.erase key }
        ((s.cache key).toList.map (fun entry => (key, entry))) := by
      apply shrinks_remove world
      intro entry hentry
      rw [hentry]
      exact mem_singleton_self _
    have hstored : ∀ k, (s.store world key none).cache k ≠ none → k ≠ key := by
      rintro k hne rfl
      rw [store_self] at hne
      exact hne rfl
    refine ⟨_, rfl, Kept.of_shrinks hshrinks.ticks (fun k entry hentry => ?_) (fun k hne => ?_) (Shrinks.refl _)
      (h.shrinks hshrinks (fun k hk => ?_)) (fun max hmax => ?_) (.nil _ _)
      (fun failure heq => by cases heq)⟩
    · exact .inr ⟨fun huses => huses.2 rfl, hshrinks.sub k entry hentry⟩
    · by_cases hk : k = key
      · exact .inr (.inr ⟨hk.symm, rfl⟩)
      · obtain ⟨entry, hentry⟩ := ne_none_iff_exists'.mp hne
        rcases hshrinks.lost k entry hentry with hleft | hpruned | hevicts
        · left
          show (s.store world key none).cache k ≠ none
          have hleft' : (s.store world key none).cache k = some entry := hleft
          rw [hleft']
          exact some_ne_none entry
        · obtain ⟨entry', -, heq⟩ := mem_map.mp hpruned
          exact absurd (Prod.mk.inj heq).1.symm hk
        · exact .inr (.inl hevicts)
    · exact Finset.mem_erase.mpr ⟨hstored k hk, hshrinks.stored h hk⟩
    · exact (Finset.card_le_card (Finset.erase_subset key s.keys)).trans (hb max hmax)

/-- **What an operation does**: it ends, and keeps the cache as it should be. -/
theorem step_kept (operation : Operation Key Value Failure) :
    ∃ outcome, s.step world operation = some outcome ∧ Kept world s operation outcome := by
  cases operation with
  | getOrInsert key body => exact getOrInsert_kept h hb key body
  | get key => exact get_kept h hb key
  | set key newValue => exact set_kept h hb key newValue
  | removeAll =>
    have hticks : s.ticks ≤ s.removeAll.ticks := le_refl _
    have hsound : Sound world s.removeAll :=
      ⟨fun k hne => absurd rfl hne, fun k entry hentry => (some_ne_none entry hentry.symm).elim,
        fun k k' entry entry' hentry => (some_ne_none entry hentry.symm).elim⟩
    exact ⟨_, rfl, Kept.of_shrinks hticks (fun k entry hentry => by cases hentry) (fun k _ => .inr (.inr trivial))
      (Shrinks.refl _) hsound (fun max _ => zero_le max) (.nil _ _)
      (fun failure heq => by cases heq)⟩
  | setMaximumSize newValue =>
    have hsound : Sound world { s with maximumSize := newValue } := ⟨h.stored, h.past, h.distinct⟩
    obtain ⟨pruned, s', hprune, hsound', hbounded, hshrinks, hyoung⟩ := pruneCache_spec hsound
    have hticks : s.ticks ≤ { s with maximumSize := newValue }.ticks := le_refl _
    refine ⟨{ returned := .nothing, pruned, state := s' }, ?_, Kept.of_shrinks hticks
      (fun k entry hentry => .inr ⟨id, hentry⟩) (fun k hne => .inl hne) hshrinks hsound' hbounded hyoung
      (fun failure heq => by cases heq)⟩
    unfold step setMaximumSize finish
    dsimp only
    rw [hprune]
    rfl
  | evict =>
    have hevict := shrinks_evict world s
    refine ⟨_, rfl, Kept.of_shrinks (le_refl _) (fun k entry hentry => .inr ⟨id, hentry⟩) (fun k hne => .inl hne)
      hevict (h.shrinks hevict (fun k hk => hevict.stored h hk)) hb (.nil _ _)
      (fun failure heq => by cases heq)⟩

end

end

end

/-! ## Runs -/

omit [DecidableEq Key] in
theorem sound_new (maximumSize : Option Nat) : Sound world ({ maximumSize } : HeavyCache Key Value Instant) where
  stored := fun _ hne => absurd rfl hne
  past := fun _ _ hentry => by cases hentry
  distinct := fun _ _ _ _ hentry => by cases hentry

theorem run_sound {s : HeavyCache Key Value Instant} (h : Sound world s) (hb : Bounded s)
    (operations : List (Operation Key Value Failure)) :
    ∃ s', s.run world operations = some s' ∧ Sound world s' ∧ Bounded s' := by
  induction operations generalizing s with
  | nil => exact ⟨s, rfl, h, hb⟩
  | cons operation operations ih =>
    obtain ⟨outcome, hstep, hkept⟩ := step_kept h hb operation
    obtain ⟨s', hrun, h', hb'⟩ := ih hkept.sound hkept.bounded
    refine ⟨s', ?_, h', hb'⟩
    unfold run
    rw [hstep]
    exact hrun

/-- A store that drops one key at one time. -/
def evictingWorld : World (Fin 5) Nat where
  evicts tick key := decide (tick = 15 ∧ key = 2)
  enumerate _ keys := (List.finRange 5).filter (· ∈ keys)
  mem_enumerate _ keys key := by simp
  clock := id
  increasing := strictMono_id

/-- The third key prunes the second, for the first was used again. The store drops the third one, so that the second
    finds room. -/
def evictingOperations : List (Operation (Fin 5) Nat Unit) :=
  [.getOrInsert 0 (.ok 10), .set 1 (some 11), .get 0, .set 2 (some 12), .getOrInsert 4 (.error ()), .evict,
    .set 1 (some 13)]

end HeavyCache

end Builra
