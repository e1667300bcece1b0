import Stencil.Proofs.Cache.Claims

/-!
# Each key is parsed once

Threads that only look up keys, one after another, with parses that use no cache and do not fail
(`World.asides` of the run is empty), and a cache with room for all keys.

**The state of a key** (`World.Once`). Once its parse has started, a key is claimed until its entry
is there, and the entry stays. So nobody else starts a parse of it, and whoever is answered is given
the value of the entry.

**The calls of a thread** (`World.unanswered`). A thread has at most one call without an answer, so
its answers are those of its calls, one after another.

**One parse of a key at a time** (`World.run_claims`). What holds of all runs, and what more holds of
these.
-/

namespace Stencil

open Relation

universe u v x

variable {κ : Type u} {ν : Type v} [DecidableEq κ]

namespace World

variable {w w' : World κ ν} {n : Nat} {me t : Thread} {act : Act κ ν} {key : κ} {call : Call κ}
  {rest : List (Call κ)} {starts : List κ} {answers : List (κ × ν)}

/-- What is done besides looking up keys: lookups in the middle of a parse, failures, and all other
uses of the cache. -/
def asides : View κ ν (Act κ ν)
  | w, me, .lookup key => if (w.calls me).isEmpty then [] else [.lookup key]
  | _, _, .resume => []
  | _, _, .keep _ => []
  | _, _, .release => []
  | _, _, act => [act]

omit [DecidableEq κ] in
theorem calls_of_asides (h : w.asides me (.lookup key) = []) : w.calls me = [] := by
  have h : (if (w.calls me).isEmpty then [] else [(.lookup key : Act κ ν)]) = [] := h
  cases hc : w.calls me with
  | nil => rfl
  | cons call rest =>
    rw [hc] at h
    cases h

/-- What is shown by one thread. -/
def View.by {α : Type x} (view : View κ ν α) (t : Thread) : View κ ν α :=
  fun w me act => if me = t then view w me act else []

/-! ## The state of a key -/

/-- Keys are claimed from the start of their parses until they have their entries, and answers are
the values of the entries. -/
structure Once (starts : List κ) (answers : List (κ × ν)) (w : World κ ν) : Prop where
  known : ∀ key, key ∈ starts ↔ w.cache.contains key = true ∨ w.cache.pending.has key = true
  nodup : starts.Nodup
  calls : ∀ t, w.calls t = [] ∨ ∃ call, w.calls t = [call] ∧ call.claimed = true ∧
    call.kept = w.cache.contains call.key
  asleep : ∀ t key, w.asleep t = some key → w.calls t = [] ∧ key ∈ starts
  answers : ∀ key value, (key, value) ∈ answers → w.cache.entries.get? key = some value

theorem once_start (capacity : Nat) : (start capacity : World κ ν).Once [] [] where
  known := fun _ => ⟨nofun, nofun⟩
  nodup := List.nodup_nil
  calls := fun _ => .inl rfl
  asleep := fun _ _ h => by cases h
  answers := fun _ _ h => absurd h List.not_mem_nil

/-- A thread without open calls has no claim that others wait for. -/
theorem Orderly.closesLoop_eq_false (ho : w.Orderly) (hcalls : w.calls me = []) (key : κ) :
    w.cache.closesLoop me key = false := by
  have hnone : ∀ key, w.cache.pending.get? key ≠ some me := by
    intro key hk
    obtain ⟨call, hcall, -⟩ := ho.claimed key me hk
    rw [hcalls] at hcall
    cases hcall
  refine Bool.eq_false_iff.2 fun hl => ?_
  obtain ⟨owner, howner, hreach⟩ := Cache.closesLoop_iff.1 hl
  rcases ReflTransGen.cases_tail hreach with rfl | ⟨_, -, key', -, hk⟩
  · exact hnone key howner
  · exact hnone key' hk

namespace Once

/-- An open call is the only one of its thread, has claimed its key, and is kept once the key has its
entry. -/
theorem call_eq (h : w.Once starts answers) (hcalls : w.calls me = call :: rest) :
    rest = [] ∧ call.claimed = true ∧ call.kept = w.cache.contains call.key := by
  rcases h.calls me with hnil | ⟨call', hcall', hclaimed, hkept⟩
  · rw [hnil] at hcalls
    cases hcalls
  · rw [hcalls, List.cons.injEq] at hcall'
    obtain ⟨rfl, hrest⟩ := hcall'
    exact ⟨hrest, hclaimed, hkept⟩

theorem rise (h : w.Once starts answers) (me : Thread) : (w.rise me).Once starts answers where
  known := h.known
  nodup := h.nodup
  calls := h.calls
  asleep := fun t key ht => by
    have ht : (if t = me then none else w.asleep t) = some key := ht
    exact h.asleep t key (Option.ite_none_left_eq_some.1 ht).2
  answers := h.answers

/-- A use of an entry moves it and changes nothing else. -/
theorem hit (h : w.Once starts answers) {value : ν} (hv : w.cache.entries.get? key = some value)
    (hits : Nat) :
    (w.setCache { w.cache with
      entries := (key, value) :: w.cache.entries.erase key, hits }).Once starts
        (answers ++ [(key, value)]) := by
  have hfront := Table.get?_front hv
  have hhas : ∀ k, Table.has ((key, value) :: w.cache.entries.erase key) k = w.cache.contains k :=
    fun k => congrArg Option.isSome (hfront k)
  refine ⟨fun k => ?_, h.nodup, fun t => ?_, h.asleep, fun k value' hm => (hfront k).trans ?_⟩
  · exact (h.known k).trans (or_congr_left (by rw [← hhas]; rfl))
  · refine (h.calls t).imp_right ?_
    rintro ⟨call, hcalls, hclaimed, hkept⟩
    exact ⟨call, hcalls, hclaimed, hkept.trans (hhas call.key).symm⟩
  · rcases List.mem_append.1 hm with hm | hm
    · exact h.answers k value' hm
    · rw [List.mem_singleton, Prod.mk.injEq] at hm
      rw [hm.1, hm.2, hv]

/-- A key that is neither there nor claimed has not been parsed before. -/
theorem claim (h : w.Once starts answers) (ha : w.asleep me = none) (hcalls : w.calls me = [])
    (hfree : w.cache.entries.get? key = none) (hp : w.cache.pending.get? key = none)
    (misses : Nat) :
    ((w.setCache { w.cache with misses, pending := w.cache.pending.set key me }).setCalls me
      (⟨key, true, false⟩ :: w.calls me)).Once (starts ++ [key]) answers := by
  have hnot : w.cache.contains key = false := by
    rw [Cache.contains, Table.has, hfree, Option.isSome_none]
  have hnew : key ∉ starts := by
    rw [h.known, not_or, hnot, Table.has, hp]
    exact ⟨Bool.false_ne_true, Bool.false_ne_true⟩
  refine ⟨fun k => ?_, ?_, fun t => ?_, fun t k ht => ?_, h.answers⟩
  · show k ∈ starts ++ [key] ↔ w.cache.contains k = true ∨
      (w.cache.pending.set key me).has k = true
    rw [Table.has_set, List.mem_append, h.known, List.mem_singleton, Bool.or_eq_true,
      decide_eq_true_eq, or_assoc, or_comm (a := k = key)]
  · refine List.nodup_append.2 ⟨h.nodup, List.nodup_singleton key, fun a hm b hb he => ?_⟩
    rw [List.mem_singleton.1 hb] at he
    exact hnew (he ▸ hm)
  · rw [calls_setCalls]
    by_cases ht : t = me
    · rw [if_pos ht, hcalls]
      exact .inr ⟨_, rfl, rfl, hnot.symm⟩
    · rw [if_neg ht]
      exact h.calls t
  · obtain ⟨hc, hk⟩ := h.asleep t k ht
    have hne : t ≠ me := fun he => by
      rw [he, asleep_setCalls, asleep_setCache, ha] at ht
      cases ht
    rw [calls_setCalls, if_neg hne]
    exact ⟨hc, List.mem_append_left _ hk⟩

theorem wait (h : w.Once starts answers) (hcalls : w.calls me = []) {owner : Thread}
    (hp : w.cache.pending.get? key = some owner) (waiting : Table Thread κ) :
    ((w.setCache { w.cache with waiting }).setAsleep me (some key)).Once starts answers := by
  have hkey : key ∈ starts := (h.known key).2 (.inr (Option.isSome_iff_exists.2 ⟨owner, hp⟩))
  refine ⟨h.known, h.nodup, h.calls, fun t k ht => ?_, h.answers⟩
  rw [asleep_setAsleep] at ht
  by_cases hme : t = me
  · rw [if_pos hme, Option.some.injEq] at ht
    rw [hme, ← ht]
    exact ⟨hcalls, hkey⟩
  · rw [if_neg hme] at ht
    exact h.asleep t k ht

/-- **A look of a thread without open calls** finds its key, waits, or starts the first parse of
it. -/
theorem look (h : w.Once starts answers) (hc : 0 < w.cache.capacity) (ho : w.Orderly)
    (ha : w.asleep me = none) (hcalls : w.calls me = []) (key : κ) :
    (w.look me key).Once
        (starts ++ if (w.cache.lookup me key).1.parses then [key] else [])
        (answers ++ (w.cache.lookup me key).1.value?.toList.map (key, ·)) ∧
      key ∈ starts ++ if (w.cache.lookup me key).1.parses then [key] else [] := by
  have hl := w.cache.looked me key
  unfold World.look
  generalize w.cache.lookup me key = r at hl ⊢
  obtain ⟨outcome, d⟩ := r
  cases hl with
  | off h0 => exact absurd h0 (Nat.ne_of_gt hc)
  | hit value hv =>
    have hkey := (h.known key).2 (.inl (Option.isSome_iff_exists.2 ⟨value, hv⟩))
    exact ⟨(List.append_nil starts).symm ▸ h.hit hv _, List.mem_append_left _ hkey⟩
  | claim hfree hp =>
    exact ⟨(List.append_nil answers).symm ▸ h.claim ha hcalls hfree hp _,
      List.mem_append_right _ List.mem_cons_self⟩
  | alone owner hfree hp hl =>
    rw [ho.closesLoop_eq_false hcalls] at hl
    cases hl
  | wait owner hfree hp hl =>
    have hkey := (h.known key).2 (.inr (Option.isSome_iff_exists.2 ⟨owner, hp⟩))
    have hwait := h.wait hcalls hp (w.cache.waiting.set me key)
    exact ⟨(List.append_nil starts).symm ▸ (List.append_nil answers).symm ▸ hwait,
      List.mem_append_left _ hkey⟩

/-- The value of a parse is kept as the first entry of its key, for which there is room. -/
theorem keep (h : w.Once starts answers) (hm : w.Marked) (hroom : w.cache.size < w.cache.capacity)
    (hcalls : w.calls me = [call]) (hkept : call.kept = false) (value : ν) :
    (w.keep me call [] value).Once starts (answers ++ [(call.key, value)]) := by
  obtain ⟨-, hclaimed, hfree⟩ := h.call_eq hcalls
  rw [hkept] at hfree
  have howner := hm.owner hcalls hclaimed
  have hinsert : w.cache.insert call.key value =
      { w.cache with entries := (call.key, value) :: w.cache.entries } := by
    have hi := w.cache.inserted call.key value
    generalize w.cache.insert call.key value = d at hi ⊢
    cases hi with
    | off h0 => exact absurd h0 (Nat.ne_of_gt (Nat.zero_lt_of_lt hroom))
    | replace hk =>
      rw [← hfree] at hk
      cases hk
    | room => rfl
    | evict _ _ hs => exact absurd hroom (Nat.not_lt_of_le hs)
  have hget : ∀ k, Table.get? ((call.key, value) :: w.cache.entries) k =
      if call.key = k then some value else w.cache.entries.get? k := fun _ => rfl
  have hold : ∀ k, call.key ≠ k →
      Table.has ((call.key, value) :: w.cache.entries) k = w.cache.contains k := by
    intro k hk
    rw [Table.has, hget, if_neg hk, Cache.contains, Table.has]
  have hnew : Table.has ((call.key, value) :: w.cache.entries) call.key = true := by
    rw [Table.has, hget, if_pos rfl, Option.isSome_some]
  unfold World.keep
  rw [hinsert, if_pos hclaimed]
  refine ⟨fun k => ?_, h.nodup, fun t => ?_, fun t k ht => ?_, fun k value' hmem => ?_⟩
  · show k ∈ starts ↔ Table.has ((call.key, value) :: w.cache.entries) k = true ∨
      w.cache.pending.has k = true
    by_cases hk : call.key = k
    · subst hk
      refine ⟨fun _ => .inl hnew, fun _ => (h.known call.key).2 (.inr ?_)⟩
      rw [Table.has, howner, Option.isSome_some]
    · rw [hold k hk]
      exact h.known k
  · rw [calls_setCalls]
    by_cases ht : t = me
    · rw [if_pos ht]
      exact .inr ⟨_, rfl, hclaimed, hnew.symm⟩
    · rw [if_neg ht]
      refine (h.calls t).imp_right ?_
      rintro ⟨call', hcall', hclaimed', hk'⟩
      refine ⟨call', hcall', hclaimed', hk'.trans (hold call'.key fun he => ht ?_).symm⟩
      -- The key is claimed by one thread only.
      have hother := hm.owner hcall' hclaimed'
      rw [← he, howner, Option.some.injEq] at hother
      exact hother.symm
  · obtain ⟨hc, hk⟩ := h.asleep t k ht
    have hne : t ≠ me := fun he => by
      rw [he, hcalls] at hc
      cases hc
    rw [calls_setCalls, if_neg hne]
    exact ⟨hc, hk⟩
  · refine (hget k).trans ?_
    rcases List.mem_append.1 hmem with hmem | hmem
    · have hv := h.answers k value' hmem
      have hne : call.key ≠ k := fun he => by
        rw [Cache.contains, Table.has, he, hv] at hfree
        cases hfree
      rw [if_neg hne, hv]
    · rw [List.mem_singleton, Prod.mk.injEq] at hmem
      rw [if_pos hmem.1.symm, hmem.2]

/-- A claim that is given back leaves its entry. -/
theorem close (h : w.Once starts answers) (hcalls : w.calls me = [call])
    (hkept : call.kept = true) : (w.close me call []).Once starts answers := by
  obtain ⟨-, hclaimed, hentry⟩ := h.call_eq hcalls
  rw [hkept] at hentry
  unfold World.close
  rw [if_pos hclaimed]
  refine ⟨fun k => ?_, h.nodup, fun t => ?_, fun t k ht => ?_, h.answers⟩
  · show k ∈ starts ↔ w.cache.contains k = true ∨ (w.cache.pending.erase call.key).has k = true
    rw [Table.has_erase, h.known]
    by_cases hk : k = call.key
    · rw [hk]
      exact ⟨fun _ => .inl hentry.symm, fun _ => .inl hentry.symm⟩
    · simp [hk]
  · rw [calls_setCalls]
    by_cases ht : t = me
    · rw [if_pos ht]
      exact .inl rfl
    · rw [if_neg ht]
      exact h.calls t
  · obtain ⟨hc, hk⟩ := h.asleep t k ht
    refine ⟨?_, hk⟩
    rw [calls_setCalls]
    split
    · rfl
    · exact hc

/-- Every key with an entry has been parsed, and so has one more that has none yet. -/
theorem room (h : w.Once starts answers) (ht : w.cache.Tidy n) (hn : starts.length ≤ n)
    (hm : w.Marked) (hcalls : w.calls me = [call]) (hkept : call.kept = false) :
    w.cache.size < w.cache.capacity := by
  obtain ⟨-, hclaimed, hfree⟩ := h.call_eq hcalls
  rw [hkept] at hfree
  have hcall : call.key ∈ starts := by
    rw [h.known, Table.has, hm.owner hcalls hclaimed, Option.isSome_some]
    exact .inr rfl
  have hnew : call.key ∉ w.cache.entries.keys := by
    rw [Table.mem_keys_iff]
    exact Bool.eq_false_iff.1 hfree.symm
  have hsub : call.key :: w.cache.entries.keys ⊆ starts := by
    refine List.cons_subset.2 ⟨hcall, fun k hk => (h.known k).2 (.inl ?_)⟩
    exact Table.mem_keys_iff.1 hk
  have hle := (List.subperm_of_subset (List.nodup_cons.2 ⟨hnew, ht.entries⟩) hsub).length_le
  rw [List.length_cons, Table.keys, List.length_map] at hle
  show w.cache.entries.length < w.cache.capacity
  rw [ht.capacity]
  omega

end Once

/-! ## The calls of a thread -/

/-- The keys of a thread's calls that have no answer yet. -/
def unanswered (w : World κ ν) (t : Thread) : List κ :=
  (w.asleep t).toList ++ ((w.calls t).filter fun call => !call.kept).map Call.key

/-- A look of a thread without open calls answers the call or leaves it without an answer. -/
theorem unanswered_look (ha : w.asleep me = none) (hcalls : w.calls me = []) (key : κ) :
    ((w.cache.lookup me key).1.value?.toList.map (key, ·)).map Prod.fst ++
      (w.look me key).unanswered me = [key] := by
  unfold unanswered World.look
  generalize w.cache.lookup me key = r
  obtain ⟨outcome, d⟩ := r
  cases outcome <;> simp [Outcome.value?, ha, hcalls]

/-- **A step that is no aside** starts the first parse of a key if any, and answers a call with the
value of its key's entry. -/
theorem Once.step (h : w.Once starts answers) (ht : w.cache.Tidy n) (ho : w.Orderly)
    (hm : w.Marked) (hn : starts.length ≤ n) (hplain : w.asides me act = [])
    (hs : w.step me act = some w') :
    w'.Once (starts ++ w.started me act) (answers ++ w.answered me act) ∧
      (∀ key ∈ w.called me act, key ∈ starts ++ w.started me act) ∧
      (∀ key ∈ w.started me act, key ∈ starts ∨ key ∈ w.called me act) ∧
      w.unanswered me ++ w.called me act =
        (w.answered me act).map Prod.fst ++ w'.unanswered me := by
  have hmem : ∀ (key' : κ) (outcome : Outcome ν) key,
      (key ∈ if outcome.parses then [key'] else []) → key = key' := by
    intro key' outcome key hk
    split at hk
    · exact List.mem_singleton.1 hk
    · cases hk
  cases stepped hs with
  | lookup key hr =>
    have hcalls := calls_of_asides hplain
    have ha := asleep_of_isReady hr
    obtain ⟨honce, hkey⟩ := h.look ht.enabled ho ha hcalls key
    have hlooks := looks_lookup w me key
    rw [started_of_looks hlooks, answered_of_looks hlooks nofun nofun]
    refine ⟨honce, fun k hk => ?_, fun k hk => .inr ?_, ?_⟩
    · rw [List.mem_singleton.1 hk]
      exact hkey
    · rw [hmem key _ k hk]
      exact List.mem_cons_self
    · rw [unanswered_look ha hcalls]
      unfold unanswered
      rw [ha, hcalls]
      rfl
  | resume key hsleep =>
    obtain ⟨hcalls, hold⟩ := h.asleep me key hsleep
    have hawake : (w.rise me).asleep me = none := if_pos rfl
    obtain ⟨honce, -⟩ := (h.rise me).look ht.enabled (ho.rise me) hawake hcalls key
    have hlooks := looks_resume hsleep
    rw [started_of_looks hlooks, answered_of_looks hlooks nofun nofun]
    refine ⟨honce, nofun, fun k hk => .inl ?_, ?_⟩
    · rw [hmem key _ k hk]
      exact hold
    · rw [unanswered_look (w := w.rise me) hawake hcalls]
      unfold unanswered
      rw [hsleep, hcalls]
      rfl
  | keep call rest value hr hcalls =>
    obtain ⟨rfl, hclaimed, -⟩ := h.call_eq hcalls
    have hkept := kept_of_isReady hr hcalls
    rw [answered_keep hcalls]
    refine ⟨(List.append_nil starts).symm ▸ h.keep hm (h.room ht hn hm hcalls hkept) hcalls hkept value,
      nofun, nofun, ?_⟩
    unfold unanswered World.keep
    simp [asleep_of_isReady hr, hcalls, hkept, hclaimed, called]
  | release call rest ha hkept hcalls =>
    obtain ⟨rfl, -, -⟩ := h.call_eq hcalls
    refine ⟨?_, nofun, nofun, ?_⟩
    · exact (List.append_nil starts).symm ▸ (List.append_nil answers).symm ▸ h.close hcalls hkept
    · unfold unanswered World.close
      simp [ha, hcalls, hkept, called, answered, looks]
  | fail => cases hplain
  | get => cases hplain
  | invalidate => cases hplain
  | clear => cases hplain

/-- Each key is parsed once so far, every key that was looked up is being parsed or has been, and
the calls of a thread are answered one after another. -/
structure Served (w₀ : World κ ν) (acts : List (Thread × Act κ ν)) (w : World κ ν) : Prop where
  once : w.Once (w₀.trace started acts) (w₀.trace answered acts)
  keys : ∀ key, key ∈ w₀.trace started acts ↔ key ∈ w₀.trace called acts
  calls : ∀ t, w₀.trace (View.by called t) acts =
    (w₀.trace (View.by answered t) acts).map Prod.fst ++ w.unanswered t

theorem Served.step {w₀ : World κ ν} {acts : List (Thread × Act κ ν)} (h : Served w₀ acts w)
    (hrun : w₀.run acts = some w) (ht : w.cache.Tidy n) (ho : w.Orderly) (hm : w.Marked)
    (hn : (w₀.trace started acts).length ≤ n) (hplain : w.asides me act = [])
    (hs : w.step me act = some w') : Served w₀ (acts ++ [(me, act)]) w' := by
  obtain ⟨honce, hcalled, hstarted, hcalls⟩ := h.once.step ht ho hm hn hplain hs
  refine ⟨?_, fun key => ?_, fun t => ?_⟩
  · rw [trace_snoc started hrun, trace_snoc answered hrun]
    exact honce
  · rw [trace_snoc started hrun, trace_snoc called hrun]
    constructor
    · intro hk
      rcases List.mem_append.1 hk with hk | hk
      · exact List.mem_append_left _ ((h.keys key).1 hk)
      · refine List.mem_append.2 ((hstarted key hk).imp_left (h.keys key).1)
    · intro hk
      rcases List.mem_append.1 hk with hk | hk
      · exact List.mem_append_left _ ((h.keys key).2 hk)
      · exact hcalled key hk
  · rw [trace_snoc (View.by called t) hrun, trace_snoc (View.by answered t) hrun, h.calls t,
      List.map_append, List.append_assoc, List.append_assoc]
    congr 1
    unfold View.by
    by_cases hme : me = t
    · subst hme
      rw [if_pos rfl, if_pos rfl, hcalls]
    · rw [if_neg hme, if_neg hme]
      obtain ⟨ha, hc⟩ := step_others hs (Ne.symm hme)
      unfold World.unanswered
      rw [ha, hc, List.append_nil]
      rfl

/-- As many parses have started as keys were looked up. -/
theorem Served.card_called {w₀ : World κ ν} {acts : List (Thread × Act κ ν)}
    (h : Served w₀ acts w) :
    (w₀.trace called acts).toFinset.card = (w₀.trace started acts).length := by
  rw [← List.toFinset_card_of_nodup h.once.nodup]
  congr 1
  ext key
  rw [List.mem_toFinset, List.mem_toFinset, h.keys]

/-- **A run without asides** in a cache with room parses each key once. -/
theorem run_served {capacity : Nat} {acts : List (Thread × Act κ ν)} (hc : 0 < capacity)
    (h : (start capacity).run acts = some w)
    (hplain : (start capacity).trace asides acts = [])
    (hroom : ((start capacity).trace called acts).toFinset.card ≤ capacity) :
    Served (start capacity) acts w := by
  refine run_snoc_induction (motive := fun acts w => (start capacity).trace asides acts = [] →
    ((start capacity).trace called acts).toFinset.card ≤ capacity →
      Served (start capacity) acts w) ?_ ?_ h hplain hroom
  · intro _ _
    exact ⟨once_start capacity, fun _ => Iff.rfl, fun _ => rfl⟩
  · intro acts x y me act hx ih hs hplain hroom
    rw [trace_snoc asides hx, List.append_eq_nil_iff] at hplain
    rw [trace_snoc called hx] at hroom
    have hsub : ((start capacity).trace called acts).toFinset ⊆
        ((start capacity).trace called acts ++ x.called me act).toFinset := by
      intro key hk
      rw [List.mem_toFinset] at hk ⊢
      exact List.mem_append_left _ hk
    have hserved := ih hplain.1 ((Finset.card_le_card hsub).trans hroom)
    refine hserved.step hx (run_tidy hc hx) (run_orderly hx) (run_marked hx) ?_ hplain.2 hs
    rw [← hserved.card_called]
    exact (Finset.card_le_card hsub).trans hroom

omit [DecidableEq κ] in
theorem not_busy_iff : ¬ w.Busy t ↔ w.asleep t = none ∧ w.calls t = [] := by
  unfold Busy
  rw [not_or, Option.not_isSome_iff_eq_none, not_not]

omit [DecidableEq κ] in
/-- What a thread that is idle has called is answered. -/
theorem unanswered_of_idle (h : ¬ w.Busy t) : w.unanswered t = [] := by
  obtain ⟨ha, hc⟩ := not_busy_iff.1 h
  unfold unanswered
  rw [ha, hc]
  rfl

/-- Nothing is found without a parse in prospect where nothing is done aside. -/
theorem found_of_asides (w : World κ ν) (me : Thread) (act : Act κ ν) (h : w.asides me act = []) :
    w.found me act = [] := by
  cases act with
  | get => cases h
  | _ => rfl

/-- **One parse of a key at a time.** Whatever any threads have done on a cache that keeps anything,
in any order: a key is claimed by one call of one thread at most; the cache notes the claims of the
open calls, no more and no less; a call that is over, after a failure too, leaves no claim of its
key; and a parse starts with a claim, or, of a key that is claimed, in a thread on which the owner
waits or which is the owner. If the threads only look up keys, with parses that use no cache and do
not fail, and there is room for all keys, then each key is parsed once, all calls for it come back
with the same value, and in the end every call has been answered, there are as many misses as keys,
and all other calls were hits. -/
theorem run_claims {capacity : Nat} {acts : List (Thread × Act κ ν)} (hc : 0 < capacity)
    (h : (start capacity).run acts = some w) :
    (∀ key t u, key ∈ w.claims t → key ∈ w.claims u → t = u) ∧
      (∀ t, (w.claims t).Nodup) ∧
      (∀ key t, w.cache.pending.get? key = some t ↔ key ∈ w.claims t) ∧
      (∀ t w', w.step t .fail = some w' ∨ w.step t .release = some w' →
        ∀ call rest, w.calls t = call :: rest → call.claimed = true →
          w'.calls t = rest ∧ w'.cache.pending.get? call.key = none) ∧
      (∀ me act w', w.step me act = some w' → ∀ key ∈ w.started me act,
        (w.cache.pending.get? key = none ∧ w'.cache.pending.get? key = some me) ∨
          ∃ owner, w.cache.pending.get? key = some owner ∧
            w'.cache.pending.get? key = some owner ∧ ReflTransGen w.cache.WaitsOn owner me) ∧
      ((start capacity).trace asides acts = [] →
        ((start capacity).trace called acts).toFinset.card ≤ capacity →
        ((start capacity).trace started acts).Nodup ∧
          (∀ key, key ∈ (start capacity).trace started acts ↔
            key ∈ (start capacity).trace called acts) ∧
          (∀ key v v', (key, v) ∈ (start capacity).trace answered acts →
            (key, v') ∈ (start capacity).trace answered acts → v = v') ∧
          ((∀ t, ¬ w.Busy t) →
            (∀ t, ((start capacity).trace (View.by answered t) acts).map Prod.fst =
              (start capacity).trace (View.by called t) acts) ∧
            w.cache.misses = ((start capacity).trace called acts).toFinset.card ∧
            w.cache.hits =
              ((start capacity).trace called acts).length - w.cache.misses)) := by
  have hm := run_marked h
  have ho := run_orderly h
  have ht := run_tidy hc h
  refine ⟨fun key t u hkt hku => ?_, hm.nodup, hm.pending, fun t w' hs call rest hcalls hcl => ?_,
    fun me act w' hs key hk => claim_of_started ht.enabled hs hk, fun hplain hroom => ?_⟩
  · exact Option.some.inj (((hm.pending key t).2 hkt).symm.trans ((hm.pending key u).2 hku))
  · obtain ⟨call', rest', hcalls', rfl⟩ :
        ∃ call rest, w.calls t = call :: rest ∧ w' = w.close t call rest := by
      rcases hs with hs | hs
      · cases stepped hs with
        | fail call rest _ hcalls => exact ⟨call, rest, hcalls, rfl⟩
      · cases stepped hs with
        | release call rest _ _ hcalls => exact ⟨call, rest, hcalls, rfl⟩
    rw [hcalls, List.cons.injEq] at hcalls'
    obtain ⟨rfl, rfl⟩ := hcalls'
    exact free_of_close hcl
  · have hs := run_served hc h hplain hroom
    refine ⟨hs.once.nodup, hs.keys, fun key v v' hv hv' => ?_, fun hidle => ?_⟩
    · exact Option.some.inj ((hs.once.answers key v hv).symm.trans (hs.once.answers key v' hv'))
    have htally := run_tallied hc h
    have hmisses : w.cache.misses = ((start capacity).trace called acts).toFinset.card := by
      rw [hs.card_called, htally.parsed]
      exact Nat.zero_add _
    refine ⟨fun t => ?_, hmisses, ?_⟩
    · rw [hs.calls t, unanswered_of_idle (hidle t), List.append_nil]
    · have hlooked := htally.looked
      have hnew : (start capacity : World κ ν).cache.lookCount = 0 := rfl
      rw [trace_eq_nil found found_of_asides hplain, hnew, Cache.lookCount,
        ho.waiting_eq_nil fun t => (not_busy_iff.1 (hidle t)).1, List.length_nil, List.length_nil] at hlooked
      omega

/-- Three threads that look up two keys: two of them find the value that the first is parsing, one
after waiting for it. -/
theorem run_claims_three :
    ∃ (acts : List (Thread × Act Nat Char)) (w : World Nat Char),
      acts = [(0, .lookup 7), (1, .lookup 7), (1, .resume), (0, .keep 'a'), (2, .lookup 7),
        (0, .release), (1, .resume), (2, .lookup 8), (2, .keep 'b'), (2, .release)] ∧
      (start 2).run acts = some w ∧ (start 2).trace asides acts = [] ∧ (∀ t, ¬ w.Busy t) ∧
        ((start 2).trace called acts).toFinset.card ≤ 2 ∧
        ((start 2).trace started acts).Nodup ∧
        ((start 2).trace (View.by answered 1) acts).map Prod.fst =
          (start 2).trace (View.by called 1) acts ∧
        w.cache.misses = ((start 2).trace called acts).toFinset.card ∧
        w.cache.hits = ((start 2).trace called acts).length - w.cache.misses := by
  generalize hacts : [(0, .lookup 7), (1, .lookup 7), (1, .resume), (0, .keep 'a'),
    (2, .lookup 7), (0, .release), (1, .resume), (2, .lookup 8), (2, .keep 'b'),
    (2, (.release : Act Nat Char))] = acts
  obtain ⟨w, h⟩ : ∃ w, (start 2).run acts = some w :=
    Option.isSome_iff_exists.1 (by subst hacts; rfl)
  have hplain : (start 2).trace asides acts = [] := by subst hacts; rfl
  have hcalled : (start 2).trace called acts = [7, 7, 7, 8] := by subst hacts; rfl
  have hroom : ((start 2).trace called acts).toFinset.card ≤ 2 := by
    rw [hcalled]
    decide
  have hthreads : acts.map Prod.fst ⊆ [0, 1, 2] := by
    subst hacts
    decide
  have hidle : ∀ t, ¬ w.Busy t := by
    intro t
    rw [not_busy_iff]
    have hthree : ((start 2).run acts).map (fun w => [0, 1, 2].all fun t =>
        (w.asleep t).isNone && (w.calls t).isEmpty) = some true := by subst hacts; rfl
    rw [h, Option.map_some, Option.some.injEq, List.all_eq_true] at hthree
    by_cases ht : t ∈ [0, 1, 2]
    · obtain ⟨ha, hc⟩ := Bool.and_eq_true_iff.1 (hthree t ht)
      exact ⟨Option.isNone_iff_eq_none.1 ha, List.isEmpty_iff.1 hc⟩
    · exact run_others h fun hm => ht (hthreads hm)
  obtain ⟨-, -, -, -, -, hrun⟩ := run_claims (by decide) h
  obtain ⟨honce, -, -, hend⟩ := hrun hplain hroom
  obtain ⟨hcalls, hmisses, hhits⟩ := hend hidle
  exact ⟨acts, w, rfl, h, hplain, hidle, hroom, honce, hcalls 1, hmisses, hhits⟩

end World

end Stencil
