import Stencil.Cache.Basic

/-!
# What a section under the lock does

**Lookups** (`Cache.Looked`). A lookup finds its key, claims it, parses without a claim, or registers
the thread as waiting, and each has its condition.

**Entries** (`Cache.Inserted`, `Cache.get_cases`). A value that is stored replaces one under its key,
finds room, or takes that of the last entry; a use of an entry moves it to the front.

Proofs about caches go by these cases and open no function of the cache.
-/

namespace Stencil

universe u v

variable {κ : Type u} {ν : Type v} [DecidableEq κ]

namespace Cache

/-- Another cache has the same claims and the same waiting threads. -/
structure SameClaims (c d : Cache κ ν) : Prop where
  pending : d.pending = c.pending
  waiting : d.waiting = c.waiting

/-! ## Lookups -/

/-- What a lookup comes to, and what it leaves. -/
inductive Looked (c : Cache κ ν) (me : Thread) (key : κ) : Outcome ν → Cache κ ν → Prop
  | off (h0 : c.capacity = 0) : Looked c me key .alone { c with misses := c.misses + 1 }
  | hit (v : ν) (hv : c.entries.get? key = some v) : Looked c me key (.hit v)
      { c with entries := (key, v) :: c.entries.erase key, hits := c.hits + 1 }
  | claim (hfree : c.entries.get? key = none) (hp : c.pending.get? key = none) :
      Looked c me key .claim
        { c with misses := c.misses + 1, pending := c.pending.set key me }
  | alone (owner : Thread) (hfree : c.entries.get? key = none)
      (hp : c.pending.get? key = some owner) (hl : c.closesLoop me key = true) :
      Looked c me key .alone { c with misses := c.misses + 1 }
  | wait (owner : Thread) (hfree : c.entries.get? key = none)
      (hp : c.pending.get? key = some owner) (hl : c.closesLoop me key = false) :
      Looked c me key .wait { c with waiting := c.waiting.set me key }

/-- **A lookup finds its key, claims it, goes on without a claim, or waits.** -/
theorem looked (c : Cache κ ν) (me : Thread) (key : κ) :
    c.Looked me key (c.lookup me key).1 (c.lookup me key).2 := by
  unfold lookup
  by_cases h0 : c.capacity = 0
  · rw [if_pos h0]
    exact .off h0
  rw [if_neg h0]
  unfold get touch?
  cases hv : c.entries.get? key with
  | some v => exact .hit v hv
  | none =>
    rw [Option.map_none]
    dsimp only
    cases hp : c.pending.get? key with
    | none =>
      rw [if_pos (by simp [Table.has, hp])]
      exact .claim hv hp
    | some owner =>
      rw [if_neg (by simp [Table.has, hp])]
      cases hl : c.closesLoop me key with
      | true => exact .alone owner hv hp hl
      | false => exact .wait owner hv hp hl

/-- The same, for proofs that do not need what is cached. -/
theorem lookup_cases (c : Cache κ ν) (me : Thread) (key : κ) :
    (∃ v d, c.lookup me key = (.hit v, d) ∧ c.SameClaims d) ∨
      (∃ d, c.lookup me key = (.claim, d) ∧ c.pending.get? key = none ∧
        d.pending = c.pending.set key me ∧ d.waiting = c.waiting) ∨
      (∃ d, c.lookup me key = (.alone, d) ∧ c.SameClaims d) ∨
      ∃ owner, c.lookup me key = (.wait, { c with waiting := c.waiting.set me key }) ∧
        c.pending.get? key = some owner ∧ c.closesLoop me key = false := by
  have hl := c.looked me key
  generalize c.lookup me key = r at hl ⊢
  obtain ⟨outcome, d⟩ := r
  cases hl with
  | off => exact .inr (.inr (.inl ⟨_, rfl, rfl, rfl⟩))
  | hit v hv => exact .inl ⟨v, _, rfl, rfl, rfl⟩
  | claim hfree hp => exact .inr (.inl ⟨_, rfl, hp, rfl, rfl⟩)
  | alone owner hfree hp hl => exact .inr (.inr (.inl ⟨_, rfl, rfl, rfl⟩))
  | wait owner hfree hp hl => exact .inr (.inr (.inr ⟨owner, rfl, hp, hl⟩))

/-! ## Entries -/

/-- Finding a key without parsing counts a use of it, if it is there. -/
theorem get_cases (c : Cache κ ν) (key : κ) :
    (∃ v, c.entries.get? key = some v ∧ c.get key =
        (some v, { c with entries := (key, v) :: c.entries.erase key, hits := c.hits + 1 })) ∨
      c.entries.get? key = none ∧ c.get key = (none, c) := by
  unfold get touch?
  cases hv : c.entries.get? key with
  | some v => exact .inl ⟨v, rfl, rfl⟩
  | none => exact .inr ⟨rfl, rfl⟩

/-- What a value that is stored leaves. -/
inductive Inserted (c : Cache κ ν) (key : κ) (value : ν) : Cache κ ν → Prop
  | off (h0 : c.capacity = 0) : Inserted c key value c
  | replace (hk : c.contains key = true) : Inserted c key value
      { c with entries := (key, value) :: c.entries.erase key }
  | room (hk : c.contains key = false) (hs : c.size < c.capacity) : Inserted c key value
      { c with entries := (key, value) :: c.entries }
  | evict (hk : c.contains key = false) (h0 : 0 < c.capacity) (hs : c.capacity ≤ c.size) :
      Inserted c key value { c with
        entries := (key, value) :: c.entries.dropLast
        evictions := c.evictions + 1 }

/-- **A value replaces one under its key, or finds room, or takes that of the last entry.** -/
theorem inserted (c : Cache κ ν) (key : κ) (value : ν) :
    c.Inserted key value (c.insert key value) := by
  unfold insert
  by_cases h0 : c.capacity = 0
  · rw [if_pos h0]
    exact .off h0
  rw [if_neg h0]
  cases hk : c.contains key with
  | true => exact .replace hk
  | false =>
    rw [if_neg Bool.false_ne_true]
    by_cases hs : c.size < c.capacity
    · rw [if_pos hs]
      exact .room hk hs
    · rw [if_neg hs]
      exact .evict hk (Nat.pos_of_ne_zero h0) (Nat.le_of_not_lt hs)

theorem SameClaims.insert (c : Cache κ ν) (key : κ) (value : ν) :
    c.SameClaims (c.insert key value) := by
  have hi := c.inserted key value
  generalize c.insert key value = d at hi ⊢
  cases hi <;> exact ⟨rfl, rfl⟩

theorem SameClaims.get (c : Cache κ ν) (key : κ) : c.SameClaims (c.get key).2 := by
  rcases c.get_cases key with ⟨v, -, hg⟩ | ⟨-, hg⟩ <;> rw [hg] <;> exact ⟨rfl, rfl⟩

end Cache

end Stencil
