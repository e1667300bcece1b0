import Stencil.Table

/-!
# The cache

**Entries.** Values by key, the most recently used first, never more than the capacity. A cache
of capacity zero keeps nothing.

**Lookups.** A thread that looks up a key and does not find it claims the key and parses; others
that look it up meanwhile wait. A thread does not wait if that would make it wait for itself,
through any number of other waiting threads: it parses on its own, without a claim.

**Steps.** Each function here is one section under the lock, so any run of several threads is a
sequence of these steps. `lookup` decides, `wake` ends a wait, `insert` keeps a parsed value, and
`release` gives a claim back, after a failure too.

**Counters.** A lookup that finds its key is a hit, one that goes on to parse a miss. An entry
dropped to make room for another key is an eviction.
-/

namespace Stencil

universe u v

/-- A thread of execution. -/
abbrev Thread := Nat

/-- A bounded cache with claims. -/
structure Cache (κ : Type u) (ν : Type v) where
  capacity : Nat
  /-- What is cached, the most recently used first. -/
  entries : Table κ ν
  /-- The claimed keys, with the thread that parses each. -/
  pending : Table κ Thread
  /-- The key that each waiting thread waits for. -/
  waiting : Table Thread κ
  hits : Nat
  misses : Nat
  evictions : Nat

/-- What a lookup comes to. -/
inductive Outcome (ν : Type v) where
  /-- The value is there. -/
  | hit (value : ν)
  /-- The thread has claimed the key and must parse. -/
  | claim
  /-- The thread must parse without a claim. -/
  | alone
  /-- The thread waits. -/
  | wait

namespace Cache

variable {κ : Type u} {ν : Type v} [DecidableEq κ]

/-- A new cache. -/
def ofCapacity (capacity : Nat) : Cache κ ν := ⟨capacity, [], [], [], 0, 0, 0⟩

/-- The cache keeps anything at all. -/
def isEnabled (c : Cache κ ν) : Bool := 0 < c.capacity

def size (c : Cache κ ν) : Nat := c.entries.length

/-- The key is cached. Does not count as a use. -/
def contains (c : Cache κ ν) (key : κ) : Bool := c.entries.has key

/-! ## Entries -/

/-- The entries with one of them moved to the front, if the key is there. -/
def touch? (entries : Table κ ν) (key : κ) : Option (ν × Table κ ν) :=
  (entries.get? key).map fun v => (v, (key, v) :: entries.erase key)

/-- Finds a key without parsing; a hit if it is there. -/
def get (c : Cache κ ν) (key : κ) : Option ν × Cache κ ν :=
  match touch? c.entries key with
  | some (v, entries) => (some v, { c with entries, hits := c.hits + 1 })
  | none => (none, c)

/-- Keeps a value, in place of one under the same key or at the cost of the least recently used
entry if there is no room. -/
def insert (c : Cache κ ν) (key : κ) (value : ν) : Cache κ ν :=
  if c.capacity = 0 then c
  else if c.contains key then { c with entries := (key, value) :: c.entries.erase key }
  else if c.size < c.capacity then { c with entries := (key, value) :: c.entries }
  else { c with
    entries := (key, value) :: c.entries.dropLast
    evictions := c.evictions + 1 }

/-- Drops the entry of a key; tells whether there was one. -/
def invalidate (c : Cache κ ν) (key : κ) : Bool × Cache κ ν :=
  (c.contains key, { c with entries := c.entries.erase key })

/-- Drops every entry. -/
def clear (c : Cache κ ν) : Cache κ ν := { c with entries := [] }

/-! ## Claims and waiting -/

/-- Whoever waits for `key` waits, through at most so many claims, for the thread `me`. -/
def reaches (c : Cache κ ν) (me : Thread) : Nat → κ → Bool
  | 0, _ => false
  | n + 1, key =>
    match c.pending.get? key with
    | none => false
    | some owner =>
      owner = me ||
        match c.waiting.get? owner with
        | some next => reaches c me n next
        | none => false

/-- If the thread waited for the key, it would wait for itself. -/
def closesLoop (c : Cache κ ν) (me : Thread) (key : κ) : Bool :=
  c.reaches me (c.waiting.length + 1) key

/-- A thread looks up a key. -/
def lookup (c : Cache κ ν) (me : Thread) (key : κ) : Outcome ν × Cache κ ν :=
  if c.capacity = 0 then (.alone, { c with misses := c.misses + 1 })
  else match c.get key with
    | (some v, c) => (.hit v, c)
    | (none, c) =>
      if !c.pending.has key then
        (.claim, { c with misses := c.misses + 1, pending := c.pending.set key me })
      else if c.closesLoop me key then (.alone, { c with misses := c.misses + 1 })
      else (.wait, { c with waiting := c.waiting.set me key })

/-- A waiting thread is woken and will look up its key again. -/
def wake (c : Cache κ ν) (me : Thread) : Cache κ ν := { c with waiting := c.waiting.erase me }

/-- A claim is given back. -/
def release (c : Cache κ ν) (key : κ) : Cache κ ν := { c with pending := c.pending.erase key }

/-! ## Small facts -/

theorem contains_insert_self {c : Cache κ ν} (h : c.isEnabled = true) (key : κ) (value : ν) :
    (c.insert key value).contains key = true := by
  have hc : c.capacity ≠ 0 := by simp only [isEnabled, decide_eq_true_eq] at h; omega
  simp only [insert, hc, if_false]
  split
  · simp [contains, Table.has, Table.get?]
  · split <;> simp [contains, Table.has, Table.get?]

theorem contains_invalidate (c : Cache κ ν) (key : κ) :
    (c.invalidate key).2.contains key = false := by
  simp [invalidate, contains, Table.has, Table.get?_erase]

end Cache

end Stencil
