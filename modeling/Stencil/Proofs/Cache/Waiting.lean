import Stencil.Proofs.Cache.Interleaving
import Mathlib.Data.List.Nodup
import Mathlib.Data.List.Perm.Subperm
import Mathlib.Data.Set.Finite.List
import Mathlib.Order.WellFoundedSet

/-!
# No cyclic waiting

**Who waits on whom** (`Cache.WaitsOn`). A thread that waits for a key waits on the thread that has
claimed it. Edges appear when a thread starts to wait, and when a thread claims a key for which
others are still registered as waiting.

**The walk** (`Cache.closesLoop_iff`). A lookup walks along the claims, as many steps as there are
waiting threads and one more. A shortest walk to the caller passes different waiting threads, so a
longer one is never needed, and the walk answers whether the caller would be reached.

**Runs** (`World.Orderly`, `World.run_orderly`). A thread that starts to wait has been found not
to be reached, and one that claims a key does not wait. Hence no step closes a cycle.

**Going on** (`World.run_waiting`). Without cycles, whoever waits leads to a thread that can go on.
-/

namespace Stencil

open Relation

universe u v

/-! ## Relations without cycles -/

section Acyclic

variable {α : Type u} {r s : α → α → Prop} {a b : α}

/-- Nothing leads to itself. -/
def Acyclic (r : α → α → Prop) : Prop := ∀ a, ¬ TransGen r a a

theorem Acyclic.mono (h : Acyclic r) (hs : ∀ x y, s x y → r x y) : Acyclic s :=
  fun a ha => h a (TransGen.mono hs a a ha)

/-- Edges to an end from which no edge goes on close no cycle. -/
theorem Acyclic.add_end (h : Acyclic r) (hs : ∀ x y, s x y → r x y ∨ y = a)
    (hend : ∀ y, ¬ s a y) : Acyclic s := by
  -- On a path that goes on, no edge is new.
  have hold : ∀ x y, TransGen s x y → ∀ z, s y z → TransGen r x y := by
    intro x y hxy
    have hstep : ∀ x y z, s x y → s y z → r x y := by
      intro x y z hxy hyz
      rcases hs x y hxy with hr | rfl
      · exact hr
      · exact absurd hyz (hend z)
    induction hxy with
    | single hxy => exact fun z hyz => .single (hstep _ _ z hxy hyz)
    | tail _ hyz ih => exact fun z hz => .tail (ih _ hyz) (hstep _ _ z hyz hz)
  intro x hx
  obtain ⟨z, hxz, -⟩ := TransGen.head'_iff.1 hx
  exact h x (hold x x hx z hxz)

/-- An edge closes no cycle if its end does not lead to its start. -/
theorem Acyclic.add_edge (h : Acyclic r) (hs : ∀ x y, s x y → r x y ∨ x = a ∧ y = b)
    (hba : ¬ ReflTransGen r b a) : Acyclic s := by
  -- A path without the edge is an old one, and one with the edge goes over it once.
  have hpath : ∀ x y, TransGen s x y →
      TransGen r x y ∨ ReflTransGen r x a ∧ ReflTransGen r b y := by
    intro x y hxy
    induction hxy with
    | single hxy =>
      rcases hs _ _ hxy with hr | ⟨rfl, rfl⟩
      · exact .inl (.single hr)
      · exact .inr ⟨.refl, .refl⟩
    | tail _ hyz ih =>
      rcases hs _ _ hyz with hr | ⟨rfl, rfl⟩
      · rcases ih with hxy | ⟨hxa, hby⟩
        · exact .inl (.tail hxy hr)
        · exact .inr ⟨hxa, .tail hby hr⟩
      · rcases ih with hxa | ⟨hxa, -⟩
        · exact .inr ⟨hxa.to_reflTransGen, .refl⟩
        · exact .inr ⟨hxa, .refl⟩
  intro x hx
  rcases hpath x x hx with hr | ⟨hxa, hbx⟩
  · exact h x hr
  · exact hba (hbx.trans hxa)

/-- Where finitely many elements have edges and nothing leads to itself, everything leads to an
element without edges. -/
theorem Acyclic.exists_end (h : Acyclic r) (hfin : {x | ∃ y, r x y}.Finite) (a : α) :
    ∃ b, ReflTransGen r a b ∧ ∀ y, ¬ r b y := by
  have horder : IsStrictOrder α fun x y => TransGen r y x :=
    { irrefl := h, trans := fun _ _ _ hxy hyz => hyz.trans hxy }
  have hwf : {x | ∃ y, r x y}.WellFoundedOn fun x y => TransGen r y x := hfin.wellFoundedOn
  by_cases ha : ∃ y, r a y
  · refine hwf.induction (P := fun a => ∃ b, ReflTransGen r a b ∧ ∀ y, ¬ r b y) ha ?_
    intro x hx ih
    obtain ⟨y, hxy⟩ := hx
    by_cases hy : ∃ z, r y z
    · obtain ⟨b, hyb, hb⟩ := ih y hy (.single hxy)
      exact ⟨b, .head hxy hyb, hb⟩
    · exact ⟨y, .single hxy, fun z hz => hy ⟨z, hz⟩⟩
  · exact ⟨a, .refl, fun y hy => ha ⟨y, hy⟩⟩

end Acyclic

variable {κ : Type u} {ν : Type v} [DecidableEq κ]

/-! ## The walk -/

namespace Cache

variable {c d : Cache κ ν} {me t u : Thread} {key next : κ} {n m : Nat}

/-- The thread waits for a key that the other has claimed. -/
def WaitsOn (c : Cache κ ν) (t u : Thread) : Prop :=
  ∃ key, c.waiting.get? t = some key ∧ c.pending.get? key = some u

theorem reaches_succ_iff : c.reaches me (n + 1) key = true ↔
    ∃ owner, c.pending.get? key = some owner ∧
      (owner = me ∨ ∃ next, c.waiting.get? owner = some next ∧ c.reaches me n next = true) := by
  rw [reaches]
  cases c.pending.get? key with
  | none => simp
  | some owner => cases hw : c.waiting.get? owner <;> simp [hw]

theorem reaches_mono (hnm : n ≤ m) (h : c.reaches me n key = true) : c.reaches me m key = true := by
  induction n generalizing m key with
  | zero => cases h
  | succ n ih =>
    obtain ⟨m, rfl⟩ : ∃ k, m = k + 1 := ⟨m - 1, by omega⟩
    obtain ⟨owner, ho, h⟩ := reaches_succ_iff.1 h
    refine reaches_succ_iff.2 ⟨owner, ho, h.imp_right ?_⟩
    rintro ⟨next, hn, h⟩
    exact ⟨next, hn, ih (by omega) h⟩

/-- Some walk from the key finds the thread if the owner of the key waits on it, through others. -/
theorem exists_reaches_iff : (∃ n, c.reaches me n key = true) ↔
    ∃ owner, c.pending.get? key = some owner ∧ ReflTransGen c.WaitsOn owner me := by
  constructor
  · rintro ⟨n, h⟩
    induction n generalizing key with
    | zero => cases h
    | succ n ih =>
      obtain ⟨owner, ho, rfl | ⟨next, hn, h⟩⟩ := reaches_succ_iff.1 h
      · exact ⟨owner, ho, .refl⟩
      · obtain ⟨owner', ho', hreach⟩ := ih h
        exact ⟨owner, ho, .head ⟨next, hn, ho'⟩ hreach⟩
  · rintro ⟨owner, ho, hreach⟩
    induction hreach using ReflTransGen.head_induction_on generalizing key with
    | refl => exact ⟨1, reaches_succ_iff.2 ⟨me, ho, .inl rfl⟩⟩
    | head hab _ ih =>
      obtain ⟨next, hn, ho'⟩ := hab
      obtain ⟨n, h⟩ := ih ho'
      exact ⟨n + 1, reaches_succ_iff.2 ⟨_, ho, .inr ⟨next, hn, h⟩⟩⟩

/-- A shortest walk passes different waiting threads. -/
theorem exists_nodup_of_reaches (h : c.reaches me (n + 1) key = true)
    (hn : c.reaches me n key = false) :
    ∃ ts : List Thread, ts.length = n ∧ ts.Nodup ∧
      ∀ t ∈ ts, ∃ next, c.waiting.get? t = some next ∧ c.reaches me n next = true := by
  induction n generalizing key with
  | zero => exact ⟨[], rfl, List.nodup_nil, fun _ ht => absurd ht List.not_mem_nil⟩
  | succ n ih =>
    obtain ⟨owner, ho, rfl | ⟨next, hw, h⟩⟩ := reaches_succ_iff.1 h
    · rw [reaches_succ_iff.2 ⟨owner, ho, .inl rfl⟩] at hn
      cases hn
    have hnext : c.reaches me n next = false := by
      refine Bool.eq_false_iff.2 fun hr => ?_
      rw [reaches_succ_iff.2 ⟨owner, ho, .inr ⟨next, hw, hr⟩⟩] at hn
      cases hn
    obtain ⟨ts, hlen, hnodup, hts⟩ := ih h hnext
    refine ⟨owner :: ts, congrArg (· + 1) hlen, List.nodup_cons.2 ⟨fun ho => ?_, hnodup⟩, ?_⟩
    · obtain ⟨next', hw', hr⟩ := hts owner ho
      rw [hw, Option.some.injEq] at hw'
      rw [hw', hr] at hnext
      cases hnext
    · intro t ht
      rcases List.mem_cons.1 ht with rfl | ht
      · exact ⟨next, hw, h⟩
      · obtain ⟨next', hw', hr⟩ := hts t ht
        exact ⟨next', hw', reaches_mono (Nat.le_succ n) hr⟩

/-- As many steps as there are waiting threads, and one more, are enough. -/
theorem reaches_of_reaches (h : c.reaches me n key = true) :
    c.reaches me (c.waiting.length + 1) key = true := by
  induction n with
  | zero => cases h
  | succ n ih =>
    cases hn : c.reaches me n key with
    | true => exact ih hn
    | false =>
      obtain ⟨ts, hlen, hnodup, hts⟩ := exists_nodup_of_reaches h hn
      have hsub : ts ⊆ c.waiting.keys := by
        intro t ht
        obtain ⟨next, hw, -⟩ := hts t ht
        exact List.mem_map_of_mem (f := (·.1)) (Table.mem_of_get? hw)
      have hle := (List.subperm_of_subset hnodup hsub).length_le
      rw [Table.keys, List.length_map, hlen] at hle
      exact reaches_mono (by omega) h

/-- **The walk is exact.** Waiting would close a loop exactly if the owner of the key waits on the
caller, through any number of others. -/
theorem closesLoop_iff : c.closesLoop me key = true ↔
    ∃ owner, c.pending.get? key = some owner ∧ ReflTransGen c.WaitsOn owner me := by
  rw [← exists_reaches_iff]
  exact ⟨fun h => ⟨_, h⟩, fun ⟨_, h⟩ => reaches_of_reaches h⟩

theorem SameClaims.waitsOn (h : c.SameClaims d) : d.WaitsOn = c.WaitsOn := by
  unfold WaitsOn
  rw [h.pending, h.waiting]

/-- A thread that is woken waits on nobody, and the others wait as before. -/
theorem WaitsOn.of_wake (h : (c.wake me).WaitsOn t u) : c.WaitsOn t u := by
  obtain ⟨key, hk, hu⟩ := h
  have hk : (c.waiting.erase me).get? t = some key := hk
  rw [Table.get?_erase] at hk
  exact ⟨key, (Option.ite_none_left_eq_some.1 hk).2, hu⟩

/-- Only registered threads wait on others. -/
theorem finite_waitsOn (c : Cache κ ν) : {t | ∃ u, c.WaitsOn t u}.Finite := by
  refine c.waiting.keys.finite_toSet.subset ?_
  rintro t ⟨u, key, hk, -⟩
  exact List.mem_map_of_mem (f := (·.1)) (Table.mem_of_get? hk)

end Cache

/-! ## Runs -/

namespace World

variable {w w' : World κ ν} {me : Thread} {key : κ} {call : Call κ} {calls rest : List (Call κ)}

/-- Exactly the sleeping threads are registered, a claim belongs to an open call of its thread, and
no thread waits on itself. -/
structure Orderly (w : World κ ν) : Prop where
  registered : ∀ t, w.cache.waiting.get? t = w.asleep t
  claimed : ∀ key u, w.cache.pending.get? key = some u →
    ∃ call ∈ w.calls u, call.key = key ∧ call.claimed = true
  acyclic : Acyclic w.cache.WaitsOn

theorem orderly_start (capacity : Nat) : (start capacity : World κ ν).Orderly where
  registered := fun _ => rfl
  claimed := fun _ _ h => by cases h
  acyclic := by
    intro t ht
    obtain ⟨u, ⟨key, hk, -⟩, -⟩ := TransGen.head'_iff.1 ht
    cases hk

namespace Orderly

theorem setCache (h : w.Orderly) {cache : Cache κ ν} (hc : w.cache.SameClaims cache) :
    (w.setCache cache).Orderly where
  registered := fun t => by
    rw [cache_setCache, hc.waiting]
    exact h.registered t
  claimed := fun key u hk => by
    rw [cache_setCache, hc.pending] at hk
    exact h.claimed key u hk
  acyclic := by
    rw [cache_setCache, hc.waitsOn]
    exact h.acyclic

/-- The calls of a thread may change as long as its claims stay in them. -/
theorem setCalls (h : w.Orderly) (hcalls : ∀ call ∈ w.calls me, call.claimed = true →
      ∃ call' ∈ calls, call'.key = call.key ∧ call'.claimed = true) :
    (w.setCalls me calls).Orderly where
  registered := h.registered
  claimed := fun key u hk => by
    obtain ⟨call, hcall, rfl, hclaimed⟩ := h.claimed key u hk
    rw [calls_setCalls]
    by_cases hu : u = me
    · subst hu
      rw [if_pos rfl]
      exact hcalls call hcall hclaimed
    · rw [if_neg hu]
      exact ⟨call, hcall, rfl, hclaimed⟩
  acyclic := h.acyclic

/-- Others that wait for the key wait on the thread that claims it, which does not wait. -/
theorem claim (h : w.Orderly) (ha : w.asleep me = none) {cache : Cache κ ν}
    (hp : cache.pending = w.cache.pending.set key me) (hw : cache.waiting = w.cache.waiting) :
    ((w.setCache cache).setCalls me (⟨key, true, false⟩ :: w.calls me)).Orderly where
  registered := fun t => by
    rw [cache_setCalls, cache_setCache, hw]
    exact h.registered t
  claimed := fun key' u hk => by
    rw [cache_setCalls, cache_setCache, hp, Table.get?_set] at hk
    rw [calls_setCalls]
    by_cases hkey : key' = key
    · rw [if_pos hkey, Option.some.injEq] at hk
      rw [if_pos hk.symm, hkey]
      exact ⟨_, List.mem_cons_self, rfl, rfl⟩
    · rw [if_neg hkey] at hk
      obtain ⟨call, hcall, hc⟩ := h.claimed key' u hk
      by_cases hu : u = me
      · subst hu
        rw [if_pos rfl]
        exact ⟨call, List.mem_cons_of_mem _ hcall, hc⟩
      · rw [if_neg hu]
        exact ⟨call, hcall, hc⟩
  acyclic := by
    refine h.acyclic.add_end (a := me) ?_ ?_
    · rintro t u ⟨key', hk, hu⟩
      rw [cache_setCalls, cache_setCache, hw] at hk
      rw [cache_setCalls, cache_setCache, hp, Table.get?_set] at hu
      by_cases hkey : key' = key
      · rw [if_pos hkey, Option.some.injEq] at hu
        exact .inr hu.symm
      · rw [if_neg hkey] at hu
        exact .inl ⟨key', hk, hu⟩
    · rintro u ⟨key', hk, -⟩
      rw [cache_setCalls, cache_setCache, hw, h.registered me, ha] at hk
      cases hk

/-- A thread starts to wait only on a thread that does not wait on it. -/
theorem wait (h : w.Orderly) {owner : Thread} (ho : w.cache.pending.get? key = some owner)
    (hl : w.cache.closesLoop me key = false) :
    ((w.setCache { w.cache with waiting := w.cache.waiting.set me key }).setAsleep me
      (some key)).Orderly where
  registered := fun t => by
    rw [asleep_setAsleep, cache_setAsleep, cache_setCache, Table.get?_set, h.registered t]
    rfl
  claimed := h.claimed
  acyclic := by
    refine h.acyclic.add_edge (a := me) (b := owner) ?_ ?_
    · rintro t u ⟨key', hk, hu⟩
      rw [cache_setAsleep, cache_setCache, Table.get?_set] at hk
      by_cases ht : t = me
      · rw [if_pos ht, Option.some.injEq] at hk
        subst hk
        exact .inr ⟨ht, Option.some.inj (hu.symm.trans ho)⟩
      · rw [if_neg ht] at hk
        exact .inl ⟨key', hk, hu⟩
    · intro hreach
      rw [Cache.closesLoop_iff.2 ⟨owner, ho, hreach⟩] at hl
      cases hl

/-- A look by a thread that is awake closes no cycle. -/
theorem look (h : w.Orderly) (ha : w.asleep me = none) (key : κ) : (w.look me key).Orderly := by
  have hpush : ∀ (cache : Cache κ ν) (claimed : Bool), w.cache.SameClaims cache →
      ((w.setCache cache).setCalls me (⟨key, claimed, false⟩ :: w.calls me)).Orderly := by
    intro cache claimed hc
    exact (h.setCache hc).setCalls fun call hcall hclaimed =>
      ⟨call, List.mem_cons_of_mem _ hcall, rfl, hclaimed⟩
  unfold World.look
  rcases w.cache.lookup_cases me key with
    ⟨v, d, hl, hc⟩ | ⟨d, hl, -, hp, hw⟩ | ⟨d, hl, hc⟩ | ⟨owner, hl, ho, hloop⟩
  · rw [hl]
    exact h.setCache hc
  · rw [hl]
    exact h.claim ha hp hw
  · rw [hl]
    exact hpush d false hc
  · rw [hl]
    exact h.wait ho hloop

theorem rise (h : w.Orderly) (me : Thread) : (w.rise me).Orderly where
  registered := fun t => by
    show (w.cache.waiting.erase me).get? t = if t = me then none else w.asleep t
    rw [Table.get?_erase, h.registered t]
  claimed := h.claimed
  acyclic := h.acyclic.mono fun _ _ => Cache.WaitsOn.of_wake

theorem keep (h : w.Orderly) (hcalls : w.calls me = call :: rest) (value : ν) :
    (w.keep me call rest value).Orderly := by
  refine (h.setCache (.insert w.cache call.key value)).setCalls fun call' hcall' hclaimed => ?_
  rw [calls_setCache, hcalls] at hcall'
  rcases List.mem_cons.1 hcall' with rfl | hcall'
  · rw [if_pos hclaimed]
    exact ⟨_, List.mem_cons_self, rfl, hclaimed⟩
  · split
    · exact ⟨call', List.mem_cons_of_mem _ hcall', rfl, hclaimed⟩
    · exact ⟨call', hcall', rfl, hclaimed⟩

theorem close (h : w.Orderly) (hcalls : w.calls me = call :: rest) :
    (w.close me call rest).Orderly := by
  unfold World.close
  cases hclaimed : call.claimed with
  | false =>
    refine (h.setCache ⟨rfl, rfl⟩).setCalls fun call' hcall' hclaimed' => ?_
    rw [calls_setCache, hcalls] at hcall'
    rcases List.mem_cons.1 hcall' with rfl | hcall'
    · rw [hclaimed] at hclaimed'
      cases hclaimed'
    · exact ⟨call', hcall', rfl, hclaimed'⟩
  | true =>
    -- The claims that are left are of other keys, so their calls are left as well.
    have hold : ∀ key u, (w.cache.pending.erase call.key).get? key = some u →
        key ≠ call.key ∧ w.cache.pending.get? key = some u := by
      intro key u hk
      rw [Table.get?_erase] at hk
      exact Option.ite_none_left_eq_some.1 hk
    refine ⟨h.registered, fun key u hk => ?_, h.acyclic.mono ?_⟩
    · obtain ⟨hne, hk⟩ := hold key u hk
      obtain ⟨call', hcall', rfl, hclaimed'⟩ := h.claimed key u hk
      rw [calls_setCalls]
      by_cases hu : u = me
      · subst hu
        rw [if_pos rfl]
        rw [hcalls] at hcall'
        rcases List.mem_cons.1 hcall' with rfl | hcall'
        · exact absurd rfl hne
        · exact ⟨call', hcall', rfl, hclaimed'⟩
      · rw [if_neg hu]
        exact ⟨call', hcall', rfl, hclaimed'⟩
    · rintro t u ⟨key, hk, hu⟩
      exact ⟨key, hk, (hold key u hu).2⟩

/-- **Every step keeps waiting without cycles.** -/
theorem step (h : w.Orderly) {act : Act κ ν} (hs : w.step me act = some w') : w'.Orderly := by
  rcases step_cases hs with ⟨key, hr, rfl⟩ | ⟨key, -, rfl⟩ | ⟨call, rest, value, -, hcalls, rfl⟩ |
    ⟨call, rest, -, -, hcalls, rfl⟩ | ⟨cache, hc, rfl⟩
  · exact h.look (asleep_of_isReady hr) key
  · exact (h.rise me).look (if_pos rfl) key
  · exact h.keep hcalls value
  · exact h.close hcalls
  · exact h.setCache hc

/-- When all threads are awake, nobody is registered as waiting. -/
theorem waiting_eq_nil (h : w.Orderly) (ha : ∀ t, w.asleep t = none) : w.cache.waiting = [] :=
  Table.eq_nil_of_get? fun t => (h.registered t).trans (ha t)

/-- Whoever is waited on, through any number of others, has a lookup in progress. -/
theorem busy_of_reflTransGen (h : w.Orderly) {t u : Thread} (ht : w.Busy t)
    (hu : ReflTransGen w.cache.WaitsOn t u) : w.Busy u := by
  rcases ReflTransGen.cases_tail hu with rfl | ⟨_, -, key, -, hk⟩
  · exact ht
  · obtain ⟨call, hcall, -⟩ := h.claimed key u hk
    exact .inr (List.ne_nil_of_mem hcall)

/-- **Whoever has a lookup in progress waits for one that can go on.** -/
theorem exists_going (h : w.Orderly) {t : Thread} (ht : w.Busy t) :
    ∃ u, ReflTransGen w.cache.WaitsOn t u ∧ w.Busy u ∧
      (w.asleep u = none ∨ ∃ key, w.asleep u = some key ∧ w.cache.pending.get? key = none) := by
  obtain ⟨u, hu, hend⟩ := h.acyclic.exists_end w.cache.finite_waitsOn t
  refine ⟨u, hu, h.busy_of_reflTransGen ht hu, ?_⟩
  cases ha : w.asleep u with
  | none => exact .inl rfl
  | some key =>
    refine .inr ⟨key, rfl, Option.eq_none_iff_forall_ne_some.2 fun owner ho => ?_⟩
    exact hend owner ⟨key, (h.registered u).trans ha, ho⟩

end Orderly

theorem run_orderly {capacity : Nat} {acts : List (Thread × Act κ ν)}
    (h : (start capacity).run acts = some w) : w.Orderly :=
  run_induction (fun _ _ _ _ hw hs => hw.step hs) (orderly_start capacity) h

/-- **No cyclic waiting.** Whatever any threads have done, in any order: the threads registered as
waiting are those that sleep, and none of them waits on itself. The walk along the claims answers
whether waiting would reach the caller, also after a sleeping thread was taken off the register.
And a thread with a lookup in progress waits, if at all, for one that can go on. -/
theorem run_waiting {capacity : Nat} {acts : List (Thread × Act κ ν)}
    (h : (start capacity).run acts = some w) :
    (∀ t, w.cache.waiting.get? t = w.asleep t) ∧
      (∀ t, ¬ TransGen w.cache.WaitsOn t t) ∧
      (∀ c : Cache κ ν, (c = w.cache ∨ ∃ t, c = w.cache.wake t) → ∀ me key,
        (c.closesLoop me key = true ↔
          ∃ owner, c.pending.get? key = some owner ∧ ReflTransGen c.WaitsOn owner me)) ∧
      ∀ t, w.Busy t → ∃ u, ReflTransGen w.cache.WaitsOn t u ∧ w.Busy u ∧
        (w.asleep u = none ∨ ∃ key, w.asleep u = some key ∧ w.cache.pending.get? key = none) := by
  have hw := run_orderly h
  exact ⟨hw.registered, hw.acyclic, fun _ _ _ _ => Cache.closesLoop_iff,
    fun _ ht => hw.exists_going ht⟩

/-- Two threads that look up each other's key: the first waits, and the second goes on alone. -/
theorem run_waiting_mutual :
    ∃ w : World Nat Unit, (start 1).run
        [(0, .lookup 0), (1, .lookup 1), (0, .lookup 1), (1, .lookup 0)] = some w ∧
      w.asleep 0 = some 1 ∧ w.calls 1 = [⟨0, false, false⟩, ⟨1, true, false⟩] ∧
      (∀ t, ¬ TransGen w.cache.WaitsOn t t) ∧
      ∃ u, ReflTransGen w.cache.WaitsOn 0 u ∧ w.Busy u ∧
        (w.asleep u = none ∨ ∃ key, w.asleep u = some key ∧ w.cache.pending.get? key = none) := by
  have h : (start 1 : World Nat Unit).run
      [(0, .lookup 0), (1, .lookup 1), (0, .lookup 1), (1, .lookup 0)] =
        some (((((start 1).look 0 0).look 1 1).look 0 1).look 1 0) := rfl
  exact ⟨_, h, rfl, rfl, (run_waiting h).2.1, (run_waiting h).2.2.2 0 (.inl rfl)⟩

end World

end Stencil
