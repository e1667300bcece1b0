import Stencil.Proofs.Cache.Waiting

/-!
# What a run shows

**Views** (`World.View`, `World.trace`). A view picks something out of a step: the key that is
looked up, the key whose parse starts, the value that a call comes back with. The trace of a run is
what a view picks out of its steps, in order.

**Caches in order** (`Cache.Tidy`). A cache that is used in any way keeps each key once and no more
entries than it may.

**Tallies** (`World.Tallied`). The counters of a cache and the number of its entries follow from
the traces of a run: a look that neither finds its key nor starts a parse leaves its thread waiting,
and an entry that was stored is there, or was evicted, or was dropped on demand. One step adds as
much to one side as to the other (`World.tally_step`).
-/

namespace Stencil

universe u v x y

variable {κ : Type u} {ν : Type v} [DecidableEq κ]

/-! ## Views -/

namespace Outcome

/-- The thread goes on to parse. -/
def parses : Outcome ν → Bool
  | .claim | .alone => true
  | .hit _ | .wait => false

def value? : Outcome ν → Option ν
  | .hit v => some v
  | _ => none

end Outcome

namespace World

/-- What is picked out of an act of a thread. -/
abbrev View (κ : Type u) (ν : Type v) (α : Type x) :=
  World κ ν → Thread → Act κ ν → List α

section Trace

variable {α : Type x} (view : View κ ν α)

/-- What a view picks out of the steps of a run, in order. -/
def trace : World κ ν → List (Thread × Act κ ν) → List α
  | _, [] => []
  | w, (me, act) :: rest => view w me act ++ (w.step me act).elim [] fun w' => trace w' rest

theorem trace_append {w w' : World κ ν} {acts : List (Thread × Act κ ν)} (h : w.run acts = some w')
    (more : List (Thread × Act κ ν)) :
    trace view w (acts ++ more) = trace view w acts ++ trace view w' more := by
  induction acts generalizing w with
  | nil =>
    cases h
    rfl
  | cons a rest ih =>
    obtain ⟨w₁, h₁, h₂⟩ := Option.bind_eq_some_iff.1 h
    rw [List.cons_append, trace, trace, h₁, List.append_assoc]
    exact congrArg (view w a.1 a.2 ++ ·) (ih h₂)

theorem trace_snoc {w w' : World κ ν} {acts : List (Thread × Act κ ν)} (h : w.run acts = some w')
    (me : Thread) (act : Act κ ν) :
    trace view w (acts ++ [(me, act)]) = trace view w acts ++ view w' me act := by
  rw [trace_append view h, trace]
  congr 1
  cases w'.step me act <;> exact List.append_nil _

/-- A view that shows nothing wherever another shows nothing. -/
theorem trace_eq_nil {β : Type y} {other : View κ ν β}
    (hview : ∀ w me act, other w me act = [] → view w me act = []) {w : World κ ν}
    {acts : List (Thread × Act κ ν)} (h : trace other w acts = []) : trace view w acts = [] := by
  induction acts generalizing w with
  | nil => rfl
  | cons a rest ih =>
    obtain ⟨ha, hrest⟩ := List.append_eq_nil_iff.1 h
    refine List.append_eq_nil_iff.2 ⟨hview w a.1 a.2 ha, ?_⟩
    cases hs : w.step a.1 a.2 with
    | none => rfl
    | some w' =>
      rw [hs] at hrest
      exact ih hrest

end Trace

/-- The key that a call looks up. -/
def called : View κ ν κ
  | _, _, .lookup key => [key]
  | _, _, _ => []

/-- The key that is looked for in the cache, in a new call or again, and what that comes to. -/
def looks : View κ ν (κ × Outcome ν)
  | w, me, .lookup key => [(key, (w.cache.lookup me key).1)]
  | w, me, .resume =>
    (w.asleep me).toList.map fun key => (key, ((w.rise me).cache.lookup me key).1)
  | _, _, _ => []

/-- The key whose parse starts. -/
def started : View κ ν κ := fun w me act =>
  (w.looks me act).filterMap fun (key, outcome) => if outcome.parses then some key else none

/-- The key and the value of a call that finds its key or comes to the end of its parse. -/
def answered : View κ ν (κ × ν)
  | w, me, .keep value => (w.calls me).head?.toList.map fun call => (call.key, value)
  | w, _, .get key => (w.cache.get key).1.toList.map fun value => (key, value)
  | w, me, act => (w.looks me act).filterMap fun (key, outcome) => outcome.value?.map (key, ·)

/-- The key that is found without a parse in prospect. -/
def found : View κ ν κ
  | w, _, .get key => if w.cache.contains key then [key] else []
  | _, _, _ => []

/-- The key of a parse that gives a value while the key has no entry. -/
def stored : View κ ν κ
  | w, me, .keep _ => ((w.calls me).head?.toList.map Call.key).filter fun key => !w.cache.contains key
  | _, _, _ => []

/-- The keys whose entries are dropped on demand. -/
def dropped : View κ ν κ
  | w, _, .invalidate key => if w.cache.contains key then [key] else []
  | w, _, .clear => w.cache.entries.keys
  | _, _, _ => []

section Equations

variable {w : World κ ν} {me : Thread} {act : Act κ ν} {key : κ} {outcome : Outcome ν}
  {call : Call κ} {rest : List (Call κ)}

theorem looks_lookup (w : World κ ν) (me : Thread) (key : κ) :
    w.looks me (.lookup key) = [(key, (w.cache.lookup me key).1)] := rfl

theorem looks_resume (h : w.asleep me = some key) :
    w.looks me .resume = [(key, ((w.rise me).cache.lookup me key).1)] := by
  show (w.asleep me).toList.map _ = _
  rw [h]
  rfl

theorem started_of_looks (h : w.looks me act = [(key, outcome)]) :
    w.started me act = if outcome.parses then [key] else [] := by
  unfold started
  rw [h]
  cases outcome <;> rfl

theorem answered_of_looks (h : w.looks me act = [(key, outcome)])
    (hact : ∀ value, act ≠ .keep value) (hget : ∀ key, act ≠ .get key) :
    w.answered me act = outcome.value?.toList.map (key, ·) := by
  have ha : w.answered me act =
      (w.looks me act).filterMap fun (key, outcome) => outcome.value?.map (key, ·) := by
    cases act with
    | keep value => exact absurd rfl (hact value)
    | get key => exact absurd rfl (hget key)
    | _ => rfl
  rw [ha, h]
  cases outcome <;> rfl

theorem answered_keep (h : w.calls me = call :: rest) (value : ν) :
    w.answered me (.keep value) = [(call.key, value)] := by
  show (w.calls me).head?.toList.map _ = _
  rw [h]
  rfl

theorem stored_keep (h : w.calls me = call :: rest) (value : ν) :
    w.stored me (.keep value) = if w.cache.contains call.key then [] else [call.key] := by
  show ((w.calls me).head?.toList.map Call.key).filter _ = _
  rw [h]
  cases hc : w.cache.contains call.key <;> simp [hc]

end Equations

end World

/-! ## Caches in order -/

namespace Cache

variable {c d : Cache κ ν} {n : Nat} {me : Thread} {key : κ} {outcome : Outcome ν}

/-- The cache keeps so many entries at most, each key once, and no thread waits twice. -/
structure Tidy (c : Cache κ ν) (n : Nat) : Prop where
  capacity : c.capacity = n
  enabled : 0 < c.capacity
  entries : c.entries.keys.Nodup
  size : c.size ≤ c.capacity
  waiting : c.waiting.keys.Nodup

namespace Tidy

omit [DecidableEq κ] in
theorem ofCapacity (h : 0 < n) : (Cache.ofCapacity n : Cache κ ν).Tidy n :=
  ⟨rfl, h, List.nodup_nil, Nat.zero_le _, List.nodup_nil⟩

/-- An entry that is there moves to the front. -/
theorem front (h : c.Tidy n) (hk : c.entries.has key = true) (value : ν) (hits : Nat) :
    ({ c with entries := (key, value) :: c.entries.erase key, hits } : Cache κ ν).Tidy n where
  capacity := h.capacity
  enabled := h.enabled
  entries := Table.nodup_keys_front h.entries key value
  size := (Table.length_front h.entries hk value).trans_le h.size
  waiting := h.waiting

theorem looked (h : c.Tidy n) (hl : c.Looked me key outcome d) : d.Tidy n := by
  cases hl with
  | off => exact ⟨h.capacity, h.enabled, h.entries, h.size, h.waiting⟩
  | hit v hv => exact h.front (Option.isSome_iff_exists.2 ⟨v, hv⟩) v _
  | claim => exact ⟨h.capacity, h.enabled, h.entries, h.size, h.waiting⟩
  | alone => exact ⟨h.capacity, h.enabled, h.entries, h.size, h.waiting⟩
  | wait => exact ⟨h.capacity, h.enabled, h.entries, h.size, Table.nodup_keys_set h.waiting me key⟩

theorem lookup (h : c.Tidy n) (me : Thread) (key : κ) : (c.lookup me key).2.Tidy n :=
  h.looked (c.looked me key)

omit [DecidableEq κ] in
theorem wake (h : c.Tidy n) (me : Thread) : (c.wake me).Tidy n :=
  ⟨h.capacity, h.enabled, h.entries, h.size, Table.nodup_keys_erase h.waiting me⟩

theorem release (h : c.Tidy n) (key : κ) : (c.release key).Tidy n :=
  ⟨h.capacity, h.enabled, h.entries, h.size, h.waiting⟩

theorem get (h : c.Tidy n) (key : κ) : (c.get key).2.Tidy n := by
  rcases c.get_cases key with ⟨v, hv, hg⟩ | ⟨-, hg⟩
  · rw [hg]
    exact h.front (Option.isSome_iff_exists.2 ⟨v, hv⟩) v _
  · rw [hg]
    exact h

theorem insert (h : c.Tidy n) (key : κ) (value : ν) : (c.insert key value).Tidy n := by
  have hnew : c.contains key = false → key ∉ c.entries.keys := by
    intro hk
    rw [Table.mem_keys_iff]
    exact Bool.eq_false_iff.1 hk
  have hi := c.inserted key value
  generalize c.insert key value = d at hi ⊢
  cases hi with
  | off => exact h
  | replace hk => exact h.front hk value c.hits
  | room hk hs =>
    exact ⟨h.capacity, h.enabled, List.nodup_cons.2 ⟨hnew hk, h.entries⟩, hs, h.waiting⟩
  | evict hk h0 hs =>
    have hlast : Table.keys c.entries.dropLast = c.entries.keys.dropLast := List.map_dropLast
    refine ⟨h.capacity, h.enabled, List.nodup_cons.2 ⟨fun hm => hnew hk ?_, ?_⟩, ?_, h.waiting⟩
    · exact List.dropLast_subset _ (hlast ▸ hm)
    · show (Table.keys c.entries.dropLast).Nodup
      rw [hlast]
      exact h.entries.sublist (List.dropLast_sublist _)
    · have hsize : c.entries.length ≤ c.capacity := h.size
      show c.entries.dropLast.length + 1 ≤ c.capacity
      rw [List.length_dropLast]
      omega

theorem invalidate (h : c.Tidy n) (key : κ) : (c.invalidate key).2.Tidy n where
  capacity := h.capacity
  enabled := h.enabled
  entries := Table.nodup_keys_erase h.entries key
  size := (List.length_filter_le _ _).trans h.size
  waiting := h.waiting

omit [DecidableEq κ] in
theorem clear (h : c.Tidy n) : c.clear.Tidy n :=
  ⟨h.capacity, h.enabled, List.nodup_nil, Nat.zero_le _, h.waiting⟩

end Tidy

/-! ## Counters -/

/-- Looks that are over, and threads that wait. -/
def lookCount (c : Cache κ ν) : Nat := c.hits + c.misses + c.waiting.length

/-- Entries that are there, and entries that made room. -/
def storeCount (c : Cache κ ν) : Nat := c.size + c.evictions

/-- A look of a thread that does not wait yet is over or leaves the thread waiting, and a parse in
prospect is a miss. -/
theorem Tidy.tally_looked (h : c.Tidy n) (hw : c.waiting.get? me = none)
    (hl : c.Looked me key outcome d) :
    d.lookCount = c.lookCount + 1 ∧ d.misses = c.misses + (if outcome.parses then 1 else 0) ∧
      d.storeCount = c.storeCount := by
  have hmiss : c.hits + (c.misses + 1) + c.waiting.length =
      c.hits + c.misses + c.waiting.length + 1 := by
    omega
  cases hl with
  | hit v hv =>
    have hlen := Table.length_front h.entries (Option.isSome_iff_exists.2 ⟨v, hv⟩) v
    refine ⟨?_, rfl, congrArg (· + c.evictions) hlen⟩
    show c.hits + 1 + c.misses + c.waiting.length = c.hits + c.misses + c.waiting.length + 1
    omega
  | off => exact ⟨hmiss, rfl, rfl⟩
  | claim => exact ⟨hmiss, rfl, rfl⟩
  | alone => exact ⟨hmiss, rfl, rfl⟩
  | wait => exact ⟨congrArg (c.hits + c.misses + ·) (Table.length_set hw key), rfl, rfl⟩

omit [DecidableEq κ] in
/-- A thread that waits no more is looking again. -/
theorem Tidy.lookCount_wake (h : c.Tidy n) (hw : c.waiting.get? me = some key) :
    (c.wake me).lookCount + 1 = c.lookCount := by
  have hlen := Table.length_erase h.waiting me
  rw [Table.has, hw, Option.isSome_some, if_pos rfl] at hlen
  exact congrArg (c.hits + c.misses + ·) hlen

/-- A value that is stored under a key without an entry makes one more, or one that made room. -/
theorem Tidy.tally_insert (h : c.Tidy n) (key : κ) (value : ν) :
    (c.insert key value).lookCount = c.lookCount ∧ (c.insert key value).misses = c.misses ∧
      (c.insert key value).storeCount = c.storeCount + (if c.contains key then 0 else 1) := by
  have hi := c.inserted key value
  generalize c.insert key value = d at hi ⊢
  cases hi with
  | off h0 => exact absurd h0 (Nat.ne_of_gt h.enabled)
  | replace hk =>
    rw [hk]
    exact ⟨rfl, rfl, congrArg (· + c.evictions) (Table.length_front h.entries hk value)⟩
  | room hk hs =>
    rw [hk]
    refine ⟨rfl, rfl, ?_⟩
    show c.size + 1 + c.evictions = c.size + c.evictions + 1
    omega
  | evict hk h0 hs =>
    rw [hk]
    refine ⟨rfl, rfl, ?_⟩
    unfold Cache.size at hs
    show (c.entries.dropLast.length + 1) + (c.evictions + 1) = c.entries.length + c.evictions + 1
    rw [List.length_dropLast]
    omega

/-- Only a use that finds its key is counted. -/
theorem Tidy.tally_get (h : c.Tidy n) (key : κ) :
    (c.get key).2.lookCount = c.lookCount + (if c.contains key then 1 else 0) ∧
      (c.get key).2.misses = c.misses ∧ (c.get key).2.storeCount = c.storeCount := by
  rcases c.get_cases key with ⟨v, hv, hg⟩ | ⟨hv, hg⟩
  · have hk : c.contains key = true := Option.isSome_iff_exists.2 ⟨v, hv⟩
    rw [hg, hk]
    refine ⟨?_, rfl, congrArg (· + c.evictions) (Table.length_front h.entries hk v)⟩
    show c.hits + 1 + c.misses + c.waiting.length = c.hits + c.misses + c.waiting.length + 1
    omega
  · have hk : c.contains key = false := by rw [contains, Table.has, hv, Option.isSome_none]
    rw [hg, hk]
    exact ⟨rfl, rfl, rfl⟩

theorem Tidy.storeCount_invalidate (h : c.Tidy n) (key : κ) :
    (c.invalidate key).2.storeCount + (if c.contains key then 1 else 0) = c.storeCount := by
  have hlen := Table.length_erase h.entries key
  show (c.entries.erase key).length + c.evictions + (if c.entries.has key then 1 else 0) =
    c.entries.length + c.evictions
  omega

end Cache

/-! ## Tallies -/

namespace World

variable {w₀ w w' : World κ ν} {n : Nat} {acts : List (Thread × Act κ ν)} {me : Thread} {act : Act κ ν}

theorem cache_look (w : World κ ν) (me : Thread) (key : κ) :
    (w.look me key).cache = (w.cache.lookup me key).2 := by
  unfold look
  generalize w.cache.lookup me key = r
  obtain ⟨outcome, d⟩ := r
  cases outcome <;> rfl

/-- The cache stays in order, whatever the threads do. -/
theorem tidy_step (h : w.cache.Tidy n) (hs : w.step me act = some w') : w'.cache.Tidy n := by
  have hclose : ∀ call rest, (w.close me call rest).cache.Tidy n := by
    intro call rest
    show (if call.claimed then w.cache.release call.key else w.cache).Tidy n
    split
    · exact h.release call.key
    · exact h
  cases stepped hs with
  | lookup key =>
    rw [cache_look]
    exact h.lookup me key
  | resume key =>
    rw [cache_look]
    exact (h.wake me).lookup me key
  | keep call rest value => exact h.insert call.key value
  | fail call rest => exact hclose call rest
  | release call rest => exact hclose call rest
  | get key => exact h.get key
  | invalidate key => exact h.invalidate key
  | clear => exact h.clear

theorem run_tidy {capacity : Nat} (hc : 0 < capacity)
    (h : (start capacity).run acts = some w) : w.cache.Tidy capacity :=
  run_induction (fun _ _ _ _ hw hs => tidy_step hw hs) (.ofCapacity hc) h

/-- **What one step adds to the counters**, it adds to what is shown. -/
theorem tally_step (ht : w.cache.Tidy n) (ho : w.Orderly) (hs : w.step me act = some w') :
    w'.cache.lookCount =
        w.cache.lookCount + (w.called me act).length + (w.found me act).length ∧
      w'.cache.misses = w.cache.misses + (w.started me act).length ∧
      w'.cache.storeCount + (w.dropped me act).length =
        w.cache.storeCount + (w.stored me act).length := by
  have hone : ∀ (shown : Bool) (key : κ),
      (if shown then [key] else []).length = if shown then 1 else 0 := by
    intro shown key
    cases shown <;> rfl
  have hclose : ∀ call rest, (w.close me call rest).cache.lookCount = w.cache.lookCount ∧
      (w.close me call rest).cache.misses = w.cache.misses ∧
      (w.close me call rest).cache.storeCount = w.cache.storeCount := by
    intro call rest
    unfold close
    cases call.claimed <;> exact ⟨rfl, rfl, rfl⟩
  cases stepped hs with
  | lookup key hr =>
    have hw := (ho.registered me).trans (asleep_of_isReady hr)
    obtain ⟨hl, hm, hk⟩ := ht.tally_looked hw (w.cache.looked me key)
    rw [cache_look, started_of_looks (looks_lookup w me key), hone]
    exact ⟨hl, hm, hk⟩
  | resume key hsleep =>
    have hw : (w.rise me).cache.waiting.get? me = none := by
      show (w.cache.waiting.erase me).get? me = none
      rw [Table.get?_erase, if_pos rfl]
    have ht' : (w.rise me).cache.Tidy n := ht.wake me
    obtain ⟨hl, hm, hk⟩ := ht'.tally_looked hw ((w.rise me).cache.looked me key)
    have hrise := ht.lookCount_wake ((ho.registered me).trans hsleep)
    rw [cache_look, started_of_looks (looks_resume hsleep), hone]
    exact ⟨hl.trans hrise, hm, hk⟩
  | keep call rest value hr hcalls =>
    obtain ⟨hl, hm, hk⟩ := ht.tally_insert call.key value
    refine ⟨hl, hm, hk.trans ?_⟩
    rw [stored_keep hcalls]
    cases w.cache.contains call.key <;> rfl
  | fail call rest => exact hclose call rest
  | release call rest => exact hclose call rest
  | get key =>
    obtain ⟨hl, hm, hk⟩ := ht.tally_get key
    exact ⟨hl.trans (congrArg (w.cache.lookCount + ·) (hone _ key).symm), hm, hk⟩
  | invalidate key =>
    have hdrop := congrArg ((w.cache.invalidate key).2.storeCount + ·) (hone (w.cache.contains key) key)
    exact ⟨rfl, rfl, hdrop.trans (ht.storeCount_invalidate key)⟩
  | clear =>
    refine ⟨rfl, rfl, ?_⟩
    show 0 + w.cache.evictions + w.cache.entries.keys.length =
      w.cache.entries.length + w.cache.evictions
    rw [Table.keys, List.length_map]
    omega

/-- The counters of a world go with what was shown on the way to it. -/
structure Tallied (w₀ : World κ ν) (acts : List (Thread × Act κ ν)) (w : World κ ν) : Prop where
  looked : w.cache.lookCount =
    w₀.cache.lookCount + (w₀.trace called acts).length + (w₀.trace found acts).length
  parsed : w.cache.misses = w₀.cache.misses + (w₀.trace started acts).length
  stored : w.cache.storeCount + (w₀.trace dropped acts).length =
    w₀.cache.storeCount + (w₀.trace stored acts).length

theorem run_tallied {capacity : Nat} (hc : 0 < capacity)
    (h : (start capacity).run acts = some w) : (start capacity).Tallied acts w := by
  refine run_snoc_induction (motive := (start capacity).Tallied) ⟨rfl, rfl, rfl⟩ ?_ h
  intro acts x y me act hx hx' hs
  obtain ⟨hl, hm, hk⟩ := tally_step (run_tidy hc hx) (run_orderly hx) hs
  refine ⟨?_, ?_, ?_⟩
  · rw [trace_snoc called hx, trace_snoc found hx, List.length_append, List.length_append, hl,
      hx'.looked]
    omega
  · rw [trace_snoc started hx, List.length_append, hm, hx'.parsed, Nat.add_assoc]
  · rw [trace_snoc dropped hx, trace_snoc stored hx, List.length_append, List.length_append]
    have hold := hx'.stored
    omega

end World

end Stencil
