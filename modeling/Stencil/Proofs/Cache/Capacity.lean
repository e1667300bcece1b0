import Stencil.Proofs.Cache.Entries

/-!
# Caches of two capacities

Two caches of different capacities are used in the same way.

**Recency** (`Cache.keys_insert`). What becomes of a cache is decided by its keys, the most recently
used first. A new key comes to the front, and what then stands beyond the capacity is cut off.

**Room** (`Cache.Within`). The keys of the smaller cache are among those of the larger one, in their
order. That alone would not last: the larger cache may be full and lose its last key, while the
smaller one has room and keeps it. But the larger cache has never less room than the smaller one, so
if it is full then both are, and both lose their last keys.

**Runs** (`Cache.useAll_sublist`). Every use keeps this. Hence what the smaller cache finds is found
by the larger one.
-/

namespace Stencil

universe u v w

variable {κ : Type u} {ν : Type v} {ε : Type w} [DecidableEq κ]

namespace Cache

/-- What a thread may do with a cache. What a parse would come to is settled beforehand, and the parse
does not use the cache. -/
inductive Use (κ : Type u) (ν : Type v) (ε : Type w) where
  | getOrParse (key : κ) (outcome : Except ε ν)
  | get (key : κ)
  | contains (key : κ)
  | invalidate (key : κ)
  | clear

/-- The cache after a use. To ask whether a key is there leaves it as it was. -/
def use (me : Thread) (c : Cache κ ν) : Use κ ν ε → Cache κ ν
  | .getOrParse key outcome => (Cache.getOrParse me key (fun s => (outcome, s)) (c, ())).2.1
  | .get key => (c.get key).2
  | .contains _ => c
  | .invalidate key => (c.invalidate key).2
  | .clear => c.clear

/-- The cache after uses, one after another. -/
def useAll (me : Thread) (c : Cache κ ν) (uses : List (Use κ ν ε)) : Cache κ ν :=
  uses.foldl (use me) c

/-- The keys of a cache, the most recently used first. -/
def keys (c : Cache κ ν) : List κ := c.entries.keys

/-! ## One cache -/

/-- A cache between two uses of one thread: no key twice, no more entries than there may be, and no
claim. -/
structure Settled (c : Cache κ ν) : Prop where
  once : c.keys.Nodup
  size : c.size ≤ c.capacity
  pending : c.pending = []

variable {c d : Cache κ ν} {me : Thread} {key : κ} {outcome : Except ε ν}

omit [DecidableEq κ] in
theorem length_keys (c : Cache κ ν) : c.keys.length = c.size := List.length_map ..

omit [DecidableEq κ] in
theorem Settled.keys_eq_nil (h : c.Settled) (h0 : c.capacity = 0) : c.keys = [] := by
  have hlen := c.length_keys
  have hsize := h.size
  exact List.eq_nil_of_length_eq_zero (by omega)

/-- **A new key comes to the front, and what stands beyond the capacity is cut off.** -/
theorem keys_insert (h : c.Settled) (hk : key ∉ c.keys) (value : ν) :
    (c.insert key value).keys = (key :: c.keys).take c.capacity := by
  have hlen := c.length_keys
  have hsize := h.size
  have hfree : ¬ c.contains key = true := mt Table.mem_keys_iff.2 hk
  have hi := c.inserted key value
  generalize c.insert key value = d at hi ⊢
  cases hi with
  | off h0 => rw [h0, List.take_zero, h.keys_eq_nil h0]
  | replace hc => exact absurd hc hfree
  | room hc hs =>
    rw [List.take_of_length_le (by rw [List.length_cons]; omega)]
    rfl
  | evict hc h0 hs =>
    have hlast : Table.keys c.entries.dropLast = c.keys.dropLast := List.map_dropLast
    obtain ⟨k, hcap⟩ := Nat.exists_eq_succ_of_ne_zero (Nat.ne_of_gt h0)
    have hk : c.size - 1 = k := by omega
    show key :: Table.keys c.entries.dropLast = _
    rw [hcap, List.take_succ_cons, hlast, List.dropLast_eq_take, hlen, hk]

/-- A value that is stored changes neither the capacity nor what is counted of lookups. -/
theorem counts_insert (c : Cache κ ν) (key : κ) (value : ν) :
    (c.insert key value).capacity = c.capacity ∧ (c.insert key value).hits = c.hits ∧
      (c.insert key value).misses = c.misses := by
  have hi := c.inserted key value
  generalize c.insert key value = d at hi ⊢
  cases hi <;> exact ⟨rfl, rfl, rfl⟩

/-- What is stored does not depend on claims. -/
theorem insert_pending (c : Cache κ ν) (pending : Table κ Thread) (key : κ) (value : ν) :
    insert { c with pending } key value = { c.insert key value with pending } := by
  unfold insert
  show (if c.capacity = 0 then _ else if c.contains key = true then _ else
    if c.size < c.capacity then _ else _) = _
  split
  · rfl
  split
  · rfl
  split <;> rfl

/-- A claim that is made and given back leaves no trace. -/
theorem finish_claim (h : c.Settled) (me : Thread) (key : κ) (value? : Option ν) :
    finish { c with pending := c.pending.set key me } true key value? =
      finish c false key value? := by
  have hclaim : Table.erase (Table.set c.pending key me) key = c.pending := by
    rw [h.pending]
    simp [Table.set, Table.erase]
  cases value? with
  | none =>
    show { c with pending := Table.erase (Table.set c.pending key me) key } = c
    rw [hclaim]
  | some v =>
    show release (insert { c with pending := c.pending.set key me } key v) key = insert c key v
    rw [insert_pending]
    show { c.insert key v with pending := Table.erase (Table.set c.pending key me) key } = _
    rw [hclaim, ← (SameClaims.insert c key v).pending]

/-- The keys with one of them at the front. -/
def front (key : κ) (ks : List κ) : List κ := key :: ks.filter (· ≠ key)

/-- The cache after a use of a key that it has. -/
def found (c : Cache κ ν) (key : κ) (value : ν) : Cache κ ν :=
  { c with entries := (key, value) :: c.entries.erase key, hits := c.hits + 1 }

/-- The cache when a key has not been found. -/
def missed (c : Cache κ ν) : Cache κ ν := { c with misses := c.misses + 1 }

theorem keys_found (c : Cache κ ν) (key : κ) (value : ν) :
    (c.found key value).keys = front key c.keys :=
  congrArg (key :: ·) (Table.keys_erase c.entries key)

theorem size_found (h : c.Settled) (hk : key ∈ c.keys) (value : ν) :
    (c.found key value).size = c.size :=
  Table.length_front h.once (Table.mem_keys_iff.1 hk) value

namespace Settled

theorem insert (h : c.Settled) (hk : key ∉ c.keys) (value : ν) : (c.insert key value).Settled where
  once := by
    rw [keys_insert h hk]
    exact (List.nodup_cons.2 ⟨hk, h.once⟩).sublist (List.take_sublist _ _)
  size := by
    rw [← length_keys, keys_insert h hk, (counts_insert c key value).1]
    exact List.length_take_le _ _
  pending := (SameClaims.insert c key value).pending.trans h.pending

omit [DecidableEq κ] in
theorem missed (h : c.Settled) : c.missed.Settled :=
  ⟨h.once, h.size, h.pending⟩

theorem found (h : c.Settled) (hk : key ∈ c.keys) (value : ν) : (c.found key value).Settled where
  once := Table.nodup_keys_front h.once key value
  size := by
    rw [size_found h hk]
    exact h.size
  pending := h.pending

theorem invalidate (h : c.Settled) (key : κ) : (c.invalidate key).2.Settled where
  once := Table.nodup_keys_erase h.once key
  size := Nat.le_trans (List.length_filter_le _ _) h.size
  pending := h.pending

end Settled

theorem keys_invalidate (c : Cache κ ν) (key : κ) :
    (c.invalidate key).2.keys = c.keys.filter (· ≠ key) := Table.keys_erase c.entries key

theorem size_invalidate (h : c.Settled) (key : κ) :
    (c.invalidate key).2.size + (if key ∈ c.keys then 1 else 0) = c.size := by
  have hlen := Table.length_erase h.once key
  have hmem : key ∈ c.keys ↔ c.entries.has key = true := Table.mem_keys_iff
  simp only [hmem]
  exact hlen

/-- What a lookup with a parse at hand leaves: its key is found, or the parse fails, or the value is
stored. -/
inductive Met (c : Cache κ ν) (key : κ) : Except ε ν → Cache κ ν → Prop
  | found {outcome : Except ε ν} (hk : key ∈ c.keys) (v : ν) : Met c key outcome (c.found key v)
  | failed (hk : key ∉ c.keys) (e : ε) : Met c key (.error e) c.missed
  | stored (hk : key ∉ c.keys) (v : ν) : Met c key (.ok v) (c.missed.insert key v)

/-- **A lookup finds its key, or parses.** Between two uses there is no claim to wait for. -/
theorem Settled.met (h : c.Settled) (me : Thread) (key : κ) (outcome : Except ε ν) :
    c.Met key outcome (c.use me (.getOrParse key outcome)) := by
  have hnone : ∀ owner, c.pending.get? key ≠ some owner := by
    intro owner
    rw [h.pending]
    exact nofun
  show c.Met key outcome (Cache.getOrParse me key (fun s => (outcome, s)) (c, ())).2.1
  rw [getOrParse_eq]
  have hl := c.looked me key
  generalize c.lookup me key = r at hl ⊢
  obtain ⟨o, d⟩ := r
  cases hl with
  | off h0 =>
    have hk : key ∉ c.keys := by
      rw [h.keys_eq_nil h0]
      exact List.not_mem_nil
    cases outcome with
    | ok v => exact .stored hk v
    | error e => exact .failed hk e
  | hit v hv => exact .found (Table.mem_keys_iff.2 (Option.isSome_iff_exists.2 ⟨v, hv⟩)) v
  | claim hfree hp =>
    have hk : key ∉ c.keys := Table.get?_eq_none_iff.1 hfree
    have hfinish := finish_claim h.missed me key
    cases outcome with
    | ok v =>
      show c.Met key (.ok v) (Cache.finish { c.missed with
        pending := c.missed.pending.set key me } true key (some v))
      rw [hfinish]
      exact .stored hk v
    | error e =>
      show c.Met key (.error e) (Cache.finish { c.missed with
        pending := c.missed.pending.set key me } true key none)
      rw [hfinish]
      exact .failed hk e
  | alone owner _ hp _ => exact absurd hp (hnone owner)
  | wait owner _ hp _ => exact absurd hp (hnone owner)

/-! ## Two caches -/

/-- What is cut off a list can be cut off one that it is part of, if this leaves no more room. -/
theorem sublist_take {α : Type u} {xs ys : List α} {n m : Nat} (h : xs.Sublist ys)
    (hroom : n + ys.length ≤ xs.length + m) : (xs.take n).Sublist (ys.take m) := by
  induction h generalizing n m with
  | slnil => simp
  | @cons xs ys y h ih =>
    rw [List.length_cons] at hroom
    cases m with
    | zero =>
      have hn : n = 0 := by
        have hlen := h.length_le
        omega
      rw [hn, List.take_zero]
      exact List.nil_sublist _
    | succ m =>
      rw [List.take_succ_cons]
      exact (ih (by omega)).cons y
  | @cons_cons xs ys y h ih =>
    rw [List.length_cons, List.length_cons] at hroom
    cases n with
    | zero =>
      rw [List.take_zero]
      exact List.nil_sublist _
    | succ n =>
      cases m with
      | zero =>
        have hlen := h.length_le
        omega
      | succ m =>
        rw [List.take_succ_cons, List.take_succ_cons]
        exact (ih (by omega)).cons_cons y

/-- One cache holds no more than another and has found no more. The other one has never less room. -/
structure Within (c d : Cache κ ν) : Prop where
  inner : c.Settled
  outer : d.Settled
  keys : c.keys.Sublist d.keys
  capacity : c.capacity ≤ d.capacity
  room : c.capacity + d.size ≤ c.size + d.capacity
  hits : c.hits ≤ d.hits
  misses : d.misses ≤ c.misses

namespace Within

/-- A key that the smaller cache does not have can be taken out of the larger one. -/
theorem sublist_erased (h : c.Within d) (hk : key ∉ c.keys) :
    c.keys.Sublist (d.keys.filter (· ≠ key)) := by
  have hfilter : c.keys.filter (· ≠ key) = c.keys := by
    rw [List.filter_eq_self]
    intro k hmem
    exact decide_eq_true fun he => hk (he ▸ hmem)
  rw [← hfilter]
  exact h.keys.filter _

/-- Both find the key. -/
theorem found (h : c.Within d) (hk : key ∈ c.keys) (v v' : ν) :
    (c.found key v).Within (d.found key v') where
  inner := h.inner.found hk v
  outer := h.outer.found (h.keys.subset hk) v'
  keys := by
    rw [keys_found, keys_found]
    exact (h.keys.filter _).cons_cons key
  capacity := h.capacity
  room := by
    rw [size_found h.inner hk, size_found h.outer (h.keys.subset hk)]
    exact h.room
  hits := Nat.succ_le_succ h.hits
  misses := h.misses

/-- The larger cache alone finds the key. -/
theorem overtaken (h : c.Within d) (hk : key ∉ c.keys) (hk' : key ∈ d.keys) (v : ν) :
    c.Within (d.found key v) where
  inner := h.inner
  outer := h.outer.found hk' v
  keys := by
    rw [keys_found]
    exact (h.sublist_erased hk).cons key
  capacity := h.capacity
  room := by
    rw [size_found h.outer hk']
    exact h.room
  hits := Nat.le_succ_of_le h.hits
  misses := h.misses

omit [DecidableEq κ] in
/-- The smaller cache alone misses a key. -/
theorem missed (h : c.Within d) : c.missed.Within d where
  inner := h.inner.missed
  outer := h.outer
  keys := h.keys
  capacity := h.capacity
  room := h.room
  hits := h.hits
  misses := Nat.le_succ_of_le h.misses

omit [DecidableEq κ] in
theorem missed_both (h : c.Within d) : c.missed.Within d.missed where
  inner := h.inner.missed
  outer := h.outer.missed
  keys := h.keys
  capacity := h.capacity
  room := h.room
  hits := h.hits
  misses := Nat.succ_le_succ h.misses

/-- The smaller cache alone stores a key, which the larger one has at its front. -/
theorem insert (h : c.Within d) (hk : key ∉ c.keys) (hkeys : (key :: c.keys).Sublist d.keys)
    (v : ν) : (c.insert key v).Within d := by
  obtain ⟨hcapacity, hhits, hmisses⟩ := counts_insert c key v
  exact {
    inner := h.inner.insert hk v
    outer := h.outer
    keys := by
      rw [keys_insert h.inner hk]
      exact (List.take_sublist _ _).trans hkeys
    capacity := hcapacity ▸ h.capacity
    room := by
      have hroom := h.room
      have hsize := h.inner.size
      rw [← length_keys (c.insert key v), keys_insert h.inner hk, List.length_take, List.length_cons,
        length_keys, hcapacity]
      omega
    hits := hhits ▸ h.hits
    misses := hmisses ▸ h.misses }

/-- Both store a key that neither has. What is cut off the larger cache is cut off the smaller one. -/
theorem insert_both (h : c.Within d) (hk : key ∉ d.keys) (v v' : ν) :
    (c.insert key v).Within (d.insert key v') := by
  have hk' : key ∉ c.keys := fun hmem => hk (h.keys.subset hmem)
  obtain ⟨hcapacity, hhits, hmisses⟩ := counts_insert c key v
  obtain ⟨hcapacity', hhits', hmisses'⟩ := counts_insert d key v'
  have hroom : c.capacity + (key :: d.keys).length ≤ (key :: c.keys).length + d.capacity := by
    have hroom := h.room
    rw [List.length_cons, List.length_cons, length_keys, length_keys]
    omega
  exact {
    inner := h.inner.insert hk' v
    outer := h.outer.insert hk v'
    keys := by
      rw [keys_insert h.inner hk', keys_insert h.outer hk]
      exact sublist_take (h.keys.cons_cons key) hroom
    capacity := by
      rw [hcapacity, hcapacity']
      exact h.capacity
    room := by
      rw [← length_keys (c.insert key v), ← length_keys (d.insert key v'),
        keys_insert h.inner hk', keys_insert h.outer hk, List.length_take, List.length_take,
        hcapacity, hcapacity']
      have hle := h.capacity
      omega
    hits := by
      rw [hhits, hhits']
      exact h.hits
    misses := by
      rw [hmisses, hmisses']
      exact h.misses }

/-- Both look up a key, and parse it if they do not find it. -/
theorem getOrParse {c' d' : Cache κ ν} (h : c.Within d) (hc : c.Met key outcome c')
    (hd : d.Met key outcome d') : c'.Within d' := by
  cases hc with
  | found hk v =>
    cases hd with
    | found _ v' => exact h.found hk v v'
    | failed hk' e => exact absurd (h.keys.subset hk) hk'
    | stored hk' v' => exact absurd (h.keys.subset hk) hk'
  | failed hk e =>
    cases hd with
    | found hk' v' => exact (h.overtaken hk hk' v').missed
    | failed hk' => exact h.missed_both
  | stored hk v =>
    cases hd with
    | found hk' v' =>
      refine (h.overtaken hk hk' v').missed.insert hk ?_ v
      rw [keys_found]
      exact (h.sublist_erased hk).cons_cons key
    | stored hk' => exact h.missed_both.insert_both hk' v v

theorem get (h : c.Within d) (key : κ) : (c.get key).2.Within (d.get key).2 := by
  have hmem : ∀ {e : Cache κ ν} {v}, e.entries.get? key = some v → key ∈ e.keys :=
    fun hv => Table.mem_keys_iff.2 (Option.isSome_iff_exists.2 ⟨_, hv⟩)
  rcases c.get_cases key with ⟨v, hv, hc⟩ | ⟨hv, hc⟩ <;>
    rcases d.get_cases key with ⟨v', hv', hd⟩ | ⟨hv', hd⟩ <;> rw [hc, hd]
  · exact h.found (hmem hv) v v'
  · exact absurd (h.keys.subset (hmem hv)) (Table.get?_eq_none_iff.1 hv')
  · exact h.overtaken (Table.get?_eq_none_iff.1 hv) (hmem hv') v'
  · exact h

theorem invalidate (h : c.Within d) (key : κ) :
    (c.invalidate key).2.Within (d.invalidate key).2 where
  inner := h.inner.invalidate key
  outer := h.outer.invalidate key
  keys := by
    rw [keys_invalidate, keys_invalidate]
    exact h.keys.filter _
  capacity := h.capacity
  room := by
    have hroom := h.room
    have hc := size_invalidate h.inner key
    have hd := size_invalidate h.outer key
    show c.capacity + (d.invalidate key).2.size ≤ (c.invalidate key).2.size + d.capacity
    by_cases hk : key ∈ c.keys
    · rw [if_pos hk] at hc
      rw [if_pos (h.keys.subset hk)] at hd
      omega
    · rw [if_neg hk] at hc
      split at hd <;> omega
  hits := h.hits
  misses := h.misses

omit [DecidableEq κ] in
theorem clear (h : c.Within d) : c.clear.Within d.clear where
  inner := ⟨List.nodup_nil, Nat.zero_le _, h.inner.pending⟩
  outer := ⟨List.nodup_nil, Nat.zero_le _, h.outer.pending⟩
  keys := List.nil_sublist _
  capacity := h.capacity
  room := by
    have hle := h.capacity
    show c.capacity + 0 ≤ 0 + d.capacity
    omega
  hits := h.hits
  misses := h.misses

/-- **Every use keeps the smaller cache within the larger one.** -/
theorem use (h : c.Within d) (me : Thread) (u : Use κ ν ε) : (c.use me u).Within (d.use me u) := by
  cases u with
  | getOrParse key outcome =>
    exact h.getOrParse (h.inner.met me key outcome) (h.outer.met me key outcome)
  | get key => exact h.get key
  | contains key => exact h
  | invalidate key => exact h.invalidate key
  | clear => exact h.clear

theorem useAll (h : c.Within d) (me : Thread) (uses : List (Use κ ν ε)) :
    (c.useAll me uses).Within (d.useAll me uses) := by
  induction uses generalizing c d with
  | nil => exact h
  | cons u rest ih => exact ih (h.use me u)

end Within

/-! ## Runs -/

omit [DecidableEq κ] in
theorem within_ofCapacity {n m : Nat} (h : n ≤ m) :
    (ofCapacity n : Cache κ ν).Within (ofCapacity m) where
  inner := ⟨List.nodup_nil, Nat.zero_le _, rfl⟩
  outer := ⟨List.nodup_nil, Nat.zero_le _, rfl⟩
  keys := List.nil_sublist _
  capacity := h
  room := by
    show n + 0 ≤ 0 + m
    omega
  hits := Nat.le_refl _
  misses := Nat.le_refl _

/-- **A larger cache never holds less or finds less.** Two new caches are used in the same way by one
thread, for as long as one likes: then the keys of the smaller one, the most recently used first, are
among those of the larger one in the same order; it has had no more hits, and no fewer misses. -/
theorem useAll_sublist {n m : Nat} (h : n ≤ m) (me : Thread) (uses : List (Use κ ν ε)) :
    ((ofCapacity n : Cache κ ν).useAll me uses).keys.Sublist
        ((ofCapacity m : Cache κ ν).useAll me uses).keys ∧
      ((ofCapacity n : Cache κ ν).useAll me uses).hits ≤
        ((ofCapacity m : Cache κ ν).useAll me uses).hits ∧
      ((ofCapacity m : Cache κ ν).useAll me uses).misses ≤
        ((ofCapacity n : Cache κ ν).useAll me uses).misses := by
  have hw := (within_ofCapacity h).useAll me uses
  exact ⟨hw.keys, hw.hits, hw.misses⟩

/-- The first key is lost by the smaller cache, found by the larger one alone, and invalidated there
alone; then the parse of a new key fails. -/
theorem useAll_sublist_two :
    2 ≤ 3 ∧
      ∃ (uses : List (Use Nat Char Unit)) (small large : Cache Nat Char),
        uses = [.getOrParse 0 (.ok 'a'), .getOrParse 1 (.ok 'b'), .getOrParse 2 (.ok 'c'), .get 0,
          .getOrParse 1 (.ok 'd'), .invalidate 0, .getOrParse 3 (.error ())] ∧
        small = (ofCapacity 2).useAll 0 uses ∧ large = (ofCapacity 3).useAll 0 uses ∧
        small.keys = [1, 2] ∧ large.keys = [1, 2] ∧ small.hits = 1 ∧ large.hits = 2 ∧
        small.keys.Sublist large.keys ∧ small.hits ≤ large.hits ∧ large.misses ≤ small.misses := by
  refine ⟨by decide, _, _, _, rfl, rfl, rfl, by decide, by decide, by decide, by decide, ?_⟩
  exact useAll_sublist (by decide) 0 _

end Cache

end Stencil
