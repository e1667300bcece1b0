import Stencil.Proofs.Cache.History

/-!
# What an invalidation leaves behind

**Time** (`Timed`). A clock goes on at every act, and with each open call goes the time at which its
parse started. Values tell when the parses that gave them started, by any function `date` on them.

**Where answers come from** (`World.answered_cases`, `World.entry_cases`). An answer is the value of
an entry or comes out of a parse, and a new entry comes out of a parse.

**Since a drop** (`Timed.answered_since_drop`). When the entry of a key is dropped, whoever asks for
the key later gets a value whose parse started after that, or was in flight at that moment.

**Stale answers** (`Timed.stale_of_inFlight`). A parse that is in flight when its key is dropped
still stores its value, and it is found. So only without a parse in flight does a drop force a new
one.
-/

namespace Stencil

universe u v

variable {κ : Type u} {ν : Type v} [DecidableEq κ]

/-! ## Where answers and entries come from -/

namespace Cache

variable {c : Cache κ ν} {me : Thread} {key other : κ} {value v : ν}

/-- A lookup changes nothing about what is found, and answers with it if at all. -/
theorem get?_lookup (c : Cache κ ν) (me : Thread) (key : κ) :
    (∀ other, (c.lookup me key).2.entries.get? other = c.entries.get? other) ∧
      ∀ v, (c.lookup me key).1.value? = some v → c.entries.get? key = some v := by
  have hl := c.looked me key
  generalize c.lookup me key = r at hl ⊢
  obtain ⟨outcome, d⟩ := r
  cases hl with
  | hit value hv =>
    refine ⟨Table.get?_front hv, fun v he => ?_⟩
    cases he
    exact hv
  | off => exact ⟨fun _ => rfl, nofun⟩
  | claim => exact ⟨fun _ => rfl, nofun⟩
  | alone => exact ⟨fun _ => rfl, nofun⟩
  | wait => exact ⟨fun _ => rfl, nofun⟩

/-- A value that was stored is found. -/
theorem get_insert (h : 0 < c.capacity) (key : κ) (value : ν) :
    ((c.insert key value).get key).1 = some value := by
  have hfirst : (c.insert key value).entries.get? key = some value := by
    have hi := c.inserted key value
    generalize c.insert key value = d at hi ⊢
    cases hi with
    | off h0 => exact absurd h0 (Nat.ne_of_gt h)
    | replace => exact if_pos rfl
    | room => exact if_pos rfl
    | evict => exact if_pos rfl
  rcases (c.insert key value).get_cases key with ⟨v, hv, hg⟩ | ⟨hv, -⟩
  · rw [hg, ← hfirst, hv]
  · rw [hfirst] at hv
    cases hv

/-- What is found after a value was stored is that value or was there before. -/
theorem get?_insert (h : (c.insert key value).entries.get? other = some v) :
    c.entries.get? other = some v ∨ key = other ∧ value = v := by
  have hcons : ∀ t : Table κ ν, Table.get? ((key, value) :: t) other = some v →
      t.get? other = some v ∨ key = other ∧ value = v := by
    intro t ht
    rw [Table.get?] at ht
    split at ht
    · exact .inr ⟨‹_›, Option.some.inj ht⟩
    · exact .inl ht
  have hi := c.inserted key value
  generalize c.insert key value = d at h hi
  cases hi with
  | off => exact .inl h
  | replace =>
    refine (hcons _ h).imp_left fun ht => ?_
    rw [Table.get?_erase] at ht
    exact (Option.ite_none_left_eq_some.1 ht).2
  | room => exact hcons _ h
  | evict =>
    refine (hcons _ h).imp_left fun ht => ?_
    obtain ⟨last, hlast⟩ := List.dropLast_prefix c.entries
    rw [← hlast]
    exact Table.get?_append ht last

end Cache

namespace World

variable {w w' : World κ ν} {me : Thread} {act : Act κ ν} {key : κ} {v : ν}

/-- The act gives the value of a parse of the key. -/
def Gives (w : World κ ν) (me : Thread) (act : Act κ ν) (key : κ) (v : ν) : Prop :=
  ∃ call rest, act = .keep v ∧ w.calls me = call :: rest ∧ call.key = key ∧ call.kept = false

theorem answered_cases (h : w.step me act = some w') (ha : (key, v) ∈ w.answered me act) :
    w.cache.entries.get? key = some v ∨ w.Gives me act key v := by
  have hvalue : ∀ (outcome : Outcome ν) (key' : κ), (key, v) ∈ outcome.value?.toList.map (key', ·) →
      key' = key ∧ outcome.value? = some v := by
    intro outcome key' hm
    obtain ⟨v', hv', he⟩ := List.mem_map.1 hm
    cases he
    exact ⟨rfl, Option.mem_toList.1 hv'⟩
  cases stepped h with
  | lookup key' hr =>
    rw [answered_of_looks (looks_lookup w me key') nofun nofun] at ha
    obtain ⟨rfl, hv⟩ := hvalue _ _ ha
    exact .inl ((w.cache.get?_lookup me key').2 v hv)
  | resume key' hsleep =>
    rw [answered_of_looks (looks_resume hsleep) nofun nofun] at ha
    obtain ⟨rfl, hv⟩ := hvalue _ _ ha
    exact .inl (((w.rise me).cache.get?_lookup me key').2 v hv)
  | keep call rest value hr hcalls =>
    rw [answered_keep hcalls, List.mem_singleton, Prod.mk.injEq] at ha
    obtain ⟨rfl, rfl⟩ := ha
    exact .inr ⟨call, rest, rfl, hcalls, rfl, kept_of_isReady hr hcalls⟩
  | get key' =>
    have ha : (key, v) ∈ (w.cache.get key').1.toList.map fun value => (key', value) := ha
    obtain ⟨v', hv', he⟩ := List.mem_map.1 ha
    cases he
    rcases w.cache.get_cases key with ⟨value, hv, hg⟩ | ⟨-, hg⟩
    · rw [hg, Option.mem_toList] at hv'
      cases hv'
      exact .inl hv
    · rw [hg] at hv'
      cases hv'
  | fail => cases ha
  | release => cases ha
  | invalidate => cases ha
  | clear => cases ha

theorem entry_cases (h : w.step me act = some w') (he : w'.cache.entries.get? key = some v) :
    w.cache.entries.get? key = some v ∨ w.Gives me act key v := by
  have hclose : ∀ call rest, (w.close me call rest).cache.entries = w.cache.entries := by
    intro call rest
    unfold close
    cases call.claimed <;> rfl
  cases stepped h with
  | lookup key' =>
    rw [cache_look, (w.cache.get?_lookup me key').1] at he
    exact .inl he
  | resume key' =>
    rw [cache_look, ((w.rise me).cache.get?_lookup me key').1] at he
    exact .inl he
  | keep call rest value hr hcalls =>
    refine (Cache.get?_insert he).imp_right ?_
    rintro ⟨rfl, rfl⟩
    exact ⟨call, rest, rfl, hcalls, rfl, kept_of_isReady hr hcalls⟩
  | fail call rest =>
    rw [hclose] at he
    exact .inl he
  | release call rest =>
    rw [hclose] at he
    exact .inl he
  | get key' =>
    rcases w.cache.get_cases key' with ⟨value, hv, hg⟩ | ⟨-, hg⟩
    · rw [cache_setCache, hg] at he
      exact .inl ((Table.get?_front hv key).symm.trans he)
    · rw [cache_setCache, hg] at he
      exact .inl he
  | invalidate key' =>
    have he : (w.cache.entries.erase key').get? key = some v := he
    rw [Table.get?_erase] at he
    exact .inl (Option.ite_none_left_eq_some.1 he).2
  | clear => cases he

/-- A step opens one call of a thread, or ends one, or keeps its value, or leaves all open. -/
theorem calls_cases (h : w.step me act = some w') (t : Thread) :
    w'.calls t = w.calls t ∨ (∃ call, w'.calls t = call :: w.calls t) ∨
      ∃ call rest, w.calls t = call :: rest ∧
        (w'.calls t = rest ∨ w'.calls t = { call with kept := true } :: rest) := by
  by_cases ht : t = me
  · subst ht
    have hlook : ∀ (v : World κ ν) key, (v.look t key).calls t = v.calls t ∨
        ∃ call, (v.look t key).calls t = call :: v.calls t := by
      intro v key
      unfold look
      rcases v.cache.lookup_cases t key with
        ⟨_, d, hl, -⟩ | ⟨d, hl, -⟩ | ⟨d, hl, -⟩ | ⟨_, hl, -⟩ <;> rw [hl]
      · exact .inl rfl
      · exact .inr ⟨_, if_pos rfl⟩
      · exact .inr ⟨_, if_pos rfl⟩
      · exact .inl rfl
    rcases step_cases h with ⟨key, -, rfl⟩ | ⟨key, -, rfl⟩ | ⟨call, rest, value, -, hcalls, rfl⟩ |
      ⟨call, rest, -, -, hcalls, rfl⟩ | ⟨cache, -, rfl⟩
    · exact (hlook w key).imp_right .inl
    · exact (hlook (w.rise t) key).imp_right .inl
    · refine .inr (.inr ⟨call, rest, hcalls, ?_⟩)
      unfold keep
      rw [calls_setCalls, if_pos rfl]
      split
      · exact .inr rfl
      · exact .inl rfl
    · exact .inr (.inr ⟨call, rest, hcalls, .inl (if_pos rfl)⟩)
    · exact .inl rfl
  · exact .inl (step_others h ht).2

end World

/-! ## Time -/

section Zip

variable {α : Type u} {β : Type v} {a b : α} {time : β} {calls : List α} {times : List β}

theorem mem_zip_of_tail (h : (a, time) ∈ calls.zip times.tail) : (a, time) ∈ (b :: calls).zip times := by
  cases times with
  | nil =>
    rw [List.tail_nil, List.zip_nil_right] at h
    cases h
  | cons _ _ => exact List.mem_cons_of_mem _ h

/-- A pair whose first part is not the head stays when the head is another. -/
theorem mem_zip_of_ne_head {c : α} (h : (a, time) ∈ (b :: calls).zip times) (hne : a ≠ b) :
    (a, time) ∈ (c :: calls).zip times := by
  cases times with
  | nil => cases h
  | cons _ _ =>
    rcases List.mem_cons.1 h with he | h
    · exact absurd (congrArg Prod.fst he) hne
    · exact List.mem_cons_of_mem _ h

end Zip

/-- A world with a clock, and the times at which the parses of the open calls started, the innermost
first. -/
structure Timed (κ : Type u) (ν : Type v) where
  world : World κ ν
  now : Nat
  since : Thread → List Nat

namespace Timed

variable {date : ν → Nat} {x x' y z : Timed κ ν} {me t : Thread} {act : Act κ ν} {key : κ} {v : ν}
  {time : Nat}

def start (capacity : Nat) : Timed κ ν := ⟨.start capacity, 0, fun _ => []⟩

/-- The clock goes on. A call that was opened has the time, and one that is over takes its own
along. -/
def tick (x : Timed κ ν) (world : World κ ν) : Timed κ ν where
  world
  now := x.now + 1
  since := fun t =>
    if (x.world.calls t).length < (world.calls t).length then x.now :: x.since t
    else (x.since t).drop ((x.world.calls t).length - (world.calls t).length)

/-- A value that a parse gives has the time at which the parse started. -/
def agrees (date : ν → Nat) (x : Timed κ ν) (me : Thread) : Act κ ν → Bool
  | .keep value => (x.since me).head? == some (date value)
  | _ => true

/-- One act, as in the world without a clock. -/
def step (date : ν → Nat) (x : Timed κ ν) (me : Thread) (act : Act κ ν) : Option (Timed κ ν) :=
  if x.agrees date me act then (x.world.step me act).map x.tick else none

def run (date : ν → Nat) : Timed κ ν → List (Thread × Act κ ν) → Option (Timed κ ν)
  | x, [] => some x
  | x, (me, act) :: rest => (x.step date me act).bind fun x => x.run date rest

/-- A parse of the key that started at the time has not given a value yet. -/
def InFlight (x : Timed κ ν) (key : κ) (time : Nat) : Prop :=
  ∃ t, ∃ call : Call κ, (call, time) ∈ (x.world.calls t).zip (x.since t) ∧ call.key = key ∧
    call.kept = false

theorem step_eq (h : x.step date me act = some x') :
    ∃ w, x.world.step me act = some w ∧ x' = x.tick w ∧ x.agrees date me act = true := by
  obtain ⟨ha, h⟩ := Option.ite_none_right_eq_some.1 h
  obtain ⟨w, hw, rfl⟩ := Option.map_eq_some_iff.1 h
  exact ⟨w, hw, rfl, ha⟩

theorem now_step (h : x.step date me act = some x') : x'.now = x.now + 1 := by
  obtain ⟨w, -, rfl, -⟩ := step_eq h
  rfl

/-- What holds at the start of a run and is kept by every step holds at the end of the run. -/
theorem run_induction {motive : Timed κ ν → Prop}
    (step : ∀ x x' me act, motive x → x.step date me act = some x' → motive x')
    {acts : List (Thread × Act κ ν)} (hx : motive x) (h : x.run date acts = some y) : motive y := by
  induction acts generalizing x with
  | nil =>
    cases h
    exact hx
  | cons a rest ih =>
    obtain ⟨x', h', hrest⟩ := Option.bind_eq_some_iff.1 h
    exact ih (step x x' a.1 a.2 hx h') hrest

/-- A parse in flight was so before the step or has started with it. -/
theorem inFlight_cases (h : x.step date me act = some x') (hf : x'.InFlight key time) :
    x.InFlight key time ∨ time = x.now := by
  obtain ⟨w, hw, rfl, -⟩ := step_eq h
  obtain ⟨t, call, hmem, hkey, hkept⟩ := hf
  have hmem : (call, time) ∈ (w.calls t).zip
    (if (x.world.calls t).length < (w.calls t).length then x.now :: x.since t
      else (x.since t).drop ((x.world.calls t).length - (w.calls t).length)) := hmem
  rcases World.calls_cases hw t with hsame | ⟨call', hpush⟩ | ⟨call', rest, hcalls, hpop | hkeep⟩
  · rw [hsame, if_neg (Nat.lt_irrefl _), Nat.sub_self] at hmem
    exact .inl ⟨t, call, hmem, hkey, hkept⟩
  · rw [hpush, List.length_cons, if_pos (Nat.lt_succ_self _), List.zip_cons_cons,
      List.mem_cons] at hmem
    rcases hmem with he | hmem
    · exact .inr (congrArg Prod.snd he)
    · exact .inl ⟨t, call, hmem, hkey, hkept⟩
  · rw [hpop, hcalls, List.length_cons, if_neg (by omega), Nat.add_sub_cancel_left,
      List.drop_one] at hmem
    exact .inl ⟨t, call, hcalls ▸ mem_zip_of_tail hmem, hkey, hkept⟩
  · rw [hkeep, hcalls, List.length_cons, List.length_cons, if_neg (Nat.lt_irrefl _),
      Nat.sub_self] at hmem
    have hne : call ≠ { call' with kept := true } := fun he => by
      rw [he] at hkept
      cases hkept
    exact .inl ⟨t, call, hcalls ▸ mem_zip_of_ne_head hmem hne, hkey, hkept⟩

omit [DecidableEq κ] in
/-- A value that is given comes out of a parse in flight. -/
theorem inFlight_of_gives (ha : x.agrees date me act = true) (h : x.world.Gives me act key v) :
    x.InFlight key (date v) := by
  obtain ⟨call, rest, rfl, hcalls, hkey, hkept⟩ := h
  have ha : ((x.since me).head? == some (date v)) = true := ha
  rw [beq_iff_eq, List.head?_eq_some_iff] at ha
  obtain ⟨times, hs⟩ := ha
  refine ⟨me, call, ?_, hkey, hkept⟩
  rw [hcalls, hs]
  exact List.mem_cons_self

/-! ## Since a drop -/

/-- The entry of the key and the parses of it that are in flight are of allowed times. -/
structure Limited (allowed : Nat → Prop) (date : ν → Nat) (key : κ) (x : Timed κ ν) : Prop where
  entry : ∀ v, x.world.cache.entries.get? key = some v → allowed (date v)
  parses : ∀ time, x.InFlight key time → allowed time

namespace Limited

variable {allowed : Nat → Prop}

/-- Whoever asks for the key is given a value of an allowed time. -/
theorem answered (hx : x.Limited allowed date key) (h : x.step date me act = some x')
    (ha : (key, v) ∈ x.world.answered me act) : allowed (date v) := by
  obtain ⟨w, hw, -, hagrees⟩ := step_eq h
  rcases World.answered_cases hw ha with hv | hgives
  · exact hx.entry v hv
  · exact hx.parses _ (inFlight_of_gives hagrees hgives)

/-- A step starts parses at its own time only. -/
theorem step (hx : x.Limited allowed date key) (hnow : allowed x.now)
    (h : x.step date me act = some x') : x'.Limited allowed date key where
  entry := fun v hv => by
    obtain ⟨w, hw, rfl, hagrees⟩ := step_eq h
    rcases World.entry_cases hw hv with hv | hgives
    · exact hx.entry v hv
    · exact hx.parses _ (inFlight_of_gives hagrees hgives)
  parses := fun time hf => by
    rcases inFlight_cases h hf with hf | rfl
    · exact hx.parses time hf
    · exact hnow

/-- What starts later is of an allowed time, so all that is found later is. -/
theorem run {acts : List (Thread × Act κ ν)} (hx : x.Limited allowed date key)
    (hallowed : ∀ time, x.now ≤ time → allowed time) (h : x.run date acts = some y) :
    y.Limited allowed date key := by
  have hmotive := run_induction (motive := fun y => y.Limited allowed date key ∧ x.now ≤ y.now)
    (fun y y' me act hy hs => ?_) ⟨hx, Nat.le_refl _⟩ h
  · exact hmotive.1
  · obtain ⟨hlimited, hnow⟩ := hy
    exact ⟨hlimited.step (hallowed _ hnow) hs, hnow.trans ((Nat.le_succ _).trans_eq (now_step hs).symm)⟩

end Limited

/-- Parses in flight have started before. -/
theorem inFlight_lt_now {capacity : Nat} {acts : List (Thread × Act κ ν)}
    (h : (start capacity).run date acts = some x) (hf : x.InFlight key time) : time < x.now := by
  refine run_induction (motive := fun x => ∀ time, x.InFlight key time → time < x.now)
    (fun x x' me act hx hs time hf => ?_) (fun time hf => ?_) h time hf
  · rw [now_step hs]
    rcases inFlight_cases hs hf with hf | rfl
    · exact (hx time hf).trans (Nat.lt_succ_self _)
    · exact Nat.lt_succ_self _
  · obtain ⟨t, call, hmem, -⟩ := hf
    cases hmem

/-- **Answers since a drop.** After the entry of a key was dropped on demand, at any moment of any
run, whoever asks for the key gets a value whose parse started since then, or was in flight at that
moment and so had started before. In particular every answer is of a parse that started since then
if no parse of the key was in flight. -/
theorem answered_since_drop {capacity : Nat} {before after : List (Thread × Act κ ν)}
    {drop : Act κ ν} (hx : (start capacity).run date before = some x)
    (hd : drop = .invalidate key ∨ drop = .clear) (hy : x.step date me drop = some y)
    (hz : y.run date after = some z) (hs : z.step date t act = some x')
    (ha : (key, v) ∈ z.world.answered t act) :
    (y.now ≤ date v ∨ date v < y.now ∧ y.InFlight key (date v)) ∧
      ((∀ time, ¬ y.InFlight key time) → y.now ≤ date v) := by
  have hrun : ∀ time, y.InFlight key time → time < y.now := by
    intro time hf
    rw [now_step hy]
    rcases inFlight_cases hy hf with hf | rfl
    · exact (inFlight_lt_now hx hf).trans (Nat.lt_succ_self _)
    · exact Nat.lt_succ_self _
  have hempty : y.world.cache.entries.get? key = none := by
    obtain ⟨w, hw, rfl, -⟩ := step_eq hy
    rcases hd with rfl | rfl
    · cases World.stepped hw
      show (x.world.cache.entries.erase key).get? key = none
      rw [Table.get?_erase, if_pos rfl]
    · cases World.stepped hw
      rfl
  have hlimited : y.Limited (fun time => y.now ≤ time ∨ y.InFlight key time) date key := by
    refine ⟨fun v hv => ?_, fun time hf => .inr hf⟩
    rw [hempty] at hv
    cases hv
  have hanswer := (hlimited.run (fun time ht => .inl ht) hz).answered hs ha
  exact ⟨hanswer.imp_right fun hf => ⟨hrun _ hf, hf⟩, fun hfree => hanswer.resolve_right (hfree _)⟩

/-- A key is parsed, invalidated, and parsed again. -/
theorem answered_since_drop_again :
    ∃ x y z z' : Timed Nat Nat,
      (start 1).run id [(0, .lookup 7), (0, .keep 0), (0, .release)] = some x ∧
      x.step id 1 (.invalidate 7) = some y ∧
      y.run id [(1, .lookup 7), (1, .keep 4), (1, .release)] = some z ∧
      z.step id 0 (.get 7) = some z' ∧ (7, 4) ∈ z.world.answered 0 (.get 7) ∧
      y.now = 4 ∧ (y.now ≤ 4 ∨ 4 < y.now ∧ y.InFlight 7 4) ∧
      ((∀ time, ¬ y.InFlight 7 time) → y.now ≤ 4) := by
  have h : ((start 1 : Timed Nat Nat).run id [(0, .lookup 7), (0, .keep 0), (0, .release)]).bind
      (fun x => (x.step id 1 (.invalidate 7)).bind fun y =>
        (y.run id [(1, .lookup 7), (1, .keep 4), (1, .release)]).bind fun z =>
          (z.step id 0 (.get 7)).map fun _ => (y.now, z.world.answered 0 (.get 7))) =
        some (4, [(7, 4)]) := by
    rfl
  obtain ⟨x, hx, h⟩ := Option.bind_eq_some_iff.1 h
  obtain ⟨y, hy, h⟩ := Option.bind_eq_some_iff.1 h
  obtain ⟨z, hz, h⟩ := Option.bind_eq_some_iff.1 h
  obtain ⟨z', hs, h⟩ := Option.map_eq_some_iff.1 h
  rw [Prod.mk.injEq] at h
  have ha : (7, 4) ∈ z.world.answered 0 (.get 7) := by
    rw [h.2]
    exact List.mem_cons_self
  exact ⟨x, y, z, z', hx, hy, hz, hs, ha, h.1, answered_since_drop hx (.inl rfl) hy hz hs ha⟩

/-- **A parse in flight answers later.** Whatever has been dropped meanwhile: once the parse gives its
value, other threads find it. -/
theorem stale_of_inFlight {call : Call κ} {rest : List (Call κ)} {times : List Nat}
    (hc : 0 < x.world.cache.capacity) (hr : x.world.isReady me = true)
    (hcalls : x.world.calls me = call :: rest) (hsince : x.since me = date v :: times)
    (ht : t ≠ me) (hready : x.world.isReady t = true) :
    ∃ y z, x.step date me (.keep v) = some y ∧ y.step date t (.get call.key) = some z ∧
      (call.key, v) ∈ y.world.answered t (.get call.key) := by
  have hkeep : x.step date me (.keep v) = some (x.tick (x.world.keep me call rest v)) := by
    unfold step agrees World.step
    simp only [hsince, hr, hcalls, List.head?_cons, BEq.rfl, if_true, Option.map_some]
  have hready' : (x.world.keep me call rest v).isReady t = true := by
    have hother : (x.world.keep me call rest v).calls t = x.world.calls t := if_neg ht
    unfold World.isReady at hready ⊢
    rw [hother]
    exact hready
  have hget : (x.tick (x.world.keep me call rest v)).step date t (.get call.key) =
      some ((x.tick (x.world.keep me call rest v)).tick
        ((x.world.keep me call rest v).setCache
          ((x.world.keep me call rest v).cache.get call.key).2)) := by
    have hworld : (x.world.keep me call rest v).step t (.get call.key) = some _ := if_pos hready'
    exact congrArg (Option.map _) hworld
  refine ⟨_, _, hkeep, hget, ?_⟩
  show (call.key, v) ∈
    ((x.world.cache.insert call.key v).get call.key).1.toList.map fun value => (call.key, value)
  rw [Cache.get_insert hc]
  exact List.mem_cons_self

/-- An invalidation in the middle of a parse does not force another: the parse that started before it
stores its value, which is found afterwards. -/
theorem answered_stale :
    ∃ x y z z' : Timed Nat Nat,
      (start 1).run id [(0, .lookup 7)] = some x ∧ x.step id 0 (.invalidate 7) = some y ∧
      y.run id [(0, .keep 0), (0, .release)] = some z ∧ z.step id 0 (.get 7) = some z' ∧
      (7, 0) ∈ z.world.answered 0 (.get 7) ∧ 0 < y.now := by
  have h : ((start 1 : Timed Nat Nat).run id [(0, .lookup 7)]).bind
      (fun x => (x.step id 0 (.invalidate 7)).bind fun y =>
        (y.run id [(0, .keep 0), (0, .release)]).bind fun z =>
          (z.step id 0 (.get 7)).map fun _ => z.world.answered 0 (.get 7)) = some [(7, 0)] := by
    rfl
  obtain ⟨x, hx, h⟩ := Option.bind_eq_some_iff.1 h
  obtain ⟨y, hy, h⟩ := Option.bind_eq_some_iff.1 h
  obtain ⟨z, hz, h⟩ := Option.bind_eq_some_iff.1 h
  obtain ⟨z', hs, h⟩ := Option.map_eq_some_iff.1 h
  refine ⟨x, y, z, z', hx, hy, hz, hs, ?_, ?_⟩
  · rw [h]
    exact List.mem_cons_self
  · rw [now_step hy]
    exact Nat.succ_pos _

end Timed

end Stencil
