import Stencil.Proofs.Cache.History

/-!
# One parse of a key at a time

**Claims** (`World.Marked`). The cache notes a claim exactly as long as an open call has it: from
the section that starts the parse to the one that ends the call, after a failure too. No key is
claimed twice.

**Starts** (`World.claim_of_started`). A parse starts with a claim, or, while the key is claimed, in
a thread on which the owner of the claim waits or which is the owner.
-/

namespace Stencil

open Relation

universe u v

variable {κ : Type u} {ν : Type v} [DecidableEq κ]

namespace World

variable {w w' : World κ ν} {me t : Thread} {act : Act κ ν} {key : κ} {call : Call κ}
  {calls rest : List (Call κ)} {cache : Cache κ ν}

/-! ## Claims -/

/-- The keys that the open calls of a thread have claimed. -/
def claims (w : World κ ν) (t : Thread) : List κ := ((w.calls t).filter Call.claimed).map Call.key

/-- The cache notes the claims of the open calls, and no thread has two claims of one key. -/
structure Marked (w : World κ ν) : Prop where
  pending : ∀ key t, w.cache.pending.get? key = some t ↔ key ∈ w.claims t
  nodup : ∀ t, (w.claims t).Nodup

theorem marked_start (capacity : Nat) : (start capacity : World κ ν).Marked where
  pending := fun _ _ => ⟨nofun, nofun⟩
  nodup := fun _ => List.nodup_nil

omit [DecidableEq κ] in
theorem claims_setCalls (w : World κ ν) (me t : Thread) (calls : List (Call κ)) :
    (w.setCalls me calls).claims t =
      if t = me then (calls.filter Call.claimed).map Call.key else w.claims t := by
  unfold claims
  rw [calls_setCalls]
  split <;> rfl

namespace Marked

theorem owner (h : w.Marked) (hcalls : w.calls me = call :: rest) (hclaimed : call.claimed = true) :
    w.cache.pending.get? call.key = some me := by
  rw [h.pending]
  unfold claims
  rw [hcalls, List.filter_cons_of_pos hclaimed]
  exact List.mem_cons_self

/-- Claims stay noted where neither they nor the notes change. -/
theorem congr (h : w.Marked) (hp : w'.cache.pending = w.cache.pending)
    (hc : ∀ t, w'.claims t = w.claims t) : w'.Marked where
  pending := fun key t => by rw [hp, hc]; exact h.pending key t
  nodup := fun t => by rw [hc]; exact h.nodup t

theorem setCalls (h : w.Marked) (hp : cache.pending = w.cache.pending)
    (hc : (calls.filter Call.claimed).map Call.key = w.claims me) :
    ((w.setCache cache).setCalls me calls).Marked := by
  refine h.congr hp fun t => ?_
  rw [claims_setCalls, hc]
  split
  · rename_i ht
    rw [ht]
  · rfl

/-- A claim is made of a key that no thread has claimed. -/
theorem claim (h : w.Marked) (hfree : w.cache.pending.get? key = none)
    (hp : cache.pending = w.cache.pending.set key me) :
    ((w.setCache cache).setCalls me (⟨key, true, false⟩ :: w.calls me)).Marked := by
  have hnone : ∀ t, key ∉ w.claims t := by
    intro t ht
    rw [(h.pending key t).2 ht] at hfree
    cases hfree
  have hclaims : ∀ t, ((w.setCache cache).setCalls me (⟨key, true, false⟩ :: w.calls me)).claims t =
      if t = me then key :: w.claims me else w.claims t := fun t => claims_setCalls _ me t _
  refine ⟨fun key' t => ?_, fun t => ?_⟩
  · rw [hclaims, cache_setCalls, cache_setCache, hp, Table.get?_set]
    by_cases hk : key' = key
    · subst hk
      rw [if_pos rfl, Option.some.injEq]
      by_cases ht : t = me
      · rw [if_pos ht]
        exact ⟨fun _ => List.mem_cons_self, fun _ => ht.symm⟩
      · rw [if_neg ht]
        exact ⟨fun he => absurd he.symm ht, fun hm => absurd hm (hnone t)⟩
    · rw [if_neg hk, h.pending key' t]
      by_cases ht : t = me
      · subst ht
        rw [if_pos rfl, List.mem_cons, or_iff_right hk]
      · rw [if_neg ht]
  · rw [hclaims]
    by_cases ht : t = me
    · rw [if_pos ht]
      exact List.nodup_cons.2 ⟨hnone me, h.nodup me⟩
    · rw [if_neg ht]
      exact h.nodup t

theorem look (h : w.Marked) (me : Thread) (key : κ) : (w.look me key).Marked := by
  unfold World.look
  rcases w.cache.lookup_cases me key with
    ⟨v, d, hl, hc⟩ | ⟨d, hl, hfree, hp, -⟩ | ⟨d, hl, hc⟩ | ⟨owner, hl, -, -⟩
  · rw [hl]
    exact h.congr hc.pending fun _ => rfl
  · rw [hl]
    exact h.claim hfree hp
  · rw [hl]
    exact h.setCalls hc.pending rfl
  · rw [hl]
    exact h.congr rfl fun _ => rfl

theorem rise (h : w.Marked) (me : Thread) : (w.rise me).Marked := h.congr rfl fun _ => rfl

theorem keep (h : w.Marked) (hcalls : w.calls me = call :: rest) (value : ν) :
    (w.keep me call rest value).Marked := by
  refine h.setCalls (Cache.SameClaims.insert w.cache call.key value).pending ?_
  unfold claims
  rw [hcalls]
  cases hc : call.claimed with
  | true => simp [hc]
  | false => simp [hc]

/-- A call that is over leaves no claim behind. -/
theorem close (h : w.Marked) (hcalls : w.calls me = call :: rest) :
    (w.close me call rest).Marked := by
  unfold World.close
  have hme : w.claims me = ((call :: rest).filter Call.claimed).map Call.key := by
    unfold claims
    rw [hcalls]
  cases hclaimed : call.claimed with
  | false =>
    refine h.setCalls rfl ?_
    rw [hme, List.filter_cons_of_neg (by simp [hclaimed])]
  | true =>
    rw [List.filter_cons_of_pos hclaimed, List.map_cons] at hme
    have hdup := h.nodup me
    rw [hme, List.nodup_cons] at hdup
    have howner := h.owner hcalls hclaimed
    refine ⟨fun key t => ?_, fun t => ?_⟩
    · rw [claims_setCalls]
      show (w.cache.pending.erase call.key).get? key = some t ↔ _
      rw [Table.get?_erase]
      by_cases hk : key = call.key
      · subst hk
        rw [if_pos rfl]
        refine ⟨nofun, fun hm => ?_⟩
        by_cases ht : t = me
        · rw [if_pos ht] at hm
          exact absurd hm hdup.1
        · rw [if_neg ht] at hm
          have hother : w.cache.pending.get? call.key = some t := (h.pending _ t).2 hm
          rw [howner, Option.some.injEq] at hother
          exact absurd hother.symm ht
      · rw [if_neg hk, h.pending]
        by_cases ht : t = me
        · rw [if_pos ht, ht, hme, List.mem_cons, or_iff_right hk]
        · rw [if_neg ht]
          rfl
    · rw [claims_setCalls]
      by_cases ht : t = me
      · rw [if_pos ht]
        exact hdup.2
      · rw [if_neg ht]
        exact h.nodup t

/-- **Every step keeps the notes of the claims.** -/
theorem step (h : w.Marked) (hs : w.step me act = some w') : w'.Marked := by
  rcases step_cases hs with ⟨key, -, rfl⟩ | ⟨key, -, rfl⟩ | ⟨call, rest, value, -, hcalls, rfl⟩ |
    ⟨call, rest, -, -, hcalls, rfl⟩ | ⟨cache, hc, rfl⟩
  · exact h.look me key
  · exact (h.rise me).look me key
  · exact h.keep hcalls value
  · exact h.close hcalls
  · exact h.congr hc.pending fun _ => rfl

end Marked

theorem run_marked {capacity : Nat} {acts : List (Thread × Act κ ν)}
    (h : (start capacity).run acts = some w) : w.Marked :=
  run_induction (fun _ _ _ _ hw hs => hw.step hs) (marked_start capacity) h

/-- A call that is over leaves no claim of its key. -/
theorem free_of_close (h : call.claimed = true) :
    (w.close me call rest).calls me = rest ∧
      (w.close me call rest).cache.pending.get? call.key = none := by
  unfold close
  rw [if_pos h]
  refine ⟨if_pos rfl, ?_⟩
  show (w.cache.pending.erase call.key).get? call.key = none
  rw [Table.get?_erase, if_pos rfl]

/-! ## Starts -/

/-- A parse starts when a thread that is awake looks for the key, in a new call or again. -/
theorem look_of_started (hs : w.step me act = some w') (hk : key ∈ w.started me act) :
    ∃ v, (v = w ∧ w.isReady me = true ∨ v = w.rise me ∧ w.asleep me = some key) ∧
      w' = v.look me key ∧ (v.cache.lookup me key).1.parses = true := by
  have hmem : ∀ (outcome : Outcome ν) (key' : κ),
      (key ∈ if outcome.parses then [key'] else []) → key' = key ∧ outcome.parses = true := by
    intro outcome key' hm
    cases hp : outcome.parses with
    | true =>
      rw [hp, if_pos rfl, List.mem_singleton] at hm
      exact ⟨hm.symm, rfl⟩
    | false =>
      rw [hp] at hm
      cases hm
  cases stepped hs with
  | lookup key' hr =>
    rw [started_of_looks (looks_lookup w me key')] at hk
    obtain ⟨rfl, hp⟩ := hmem _ _ hk
    exact ⟨w, .inl ⟨rfl, hr⟩, rfl, hp⟩
  | resume key' hsleep =>
    rw [started_of_looks (looks_resume hsleep)] at hk
    obtain ⟨rfl, hp⟩ := hmem _ _ hk
    exact ⟨w.rise me, .inr ⟨rfl, hsleep⟩, rfl, hp⟩
  | keep => cases hk
  | fail => cases hk
  | release => cases hk
  | get => cases hk
  | invalidate => cases hk
  | clear => cases hk

/-- **A parse starts with a claim of its key, or in a thread on which the owner of the claim
waits.** -/
theorem claim_of_started (hc : 0 < w.cache.capacity) (hs : w.step me act = some w')
    (hk : key ∈ w.started me act) :
    (w.cache.pending.get? key = none ∧ w'.cache.pending.get? key = some me) ∨
      ∃ owner, w.cache.pending.get? key = some owner ∧
        w'.cache.pending.get? key = some owner ∧ ReflTransGen w.cache.WaitsOn owner me := by
  obtain ⟨v, hv, rfl, hp⟩ := look_of_started hs hk
  -- Waking up changes neither the claims nor, for the others, who waits on whom.
  have hcap : 0 < v.cache.capacity := by
    rcases hv with ⟨rfl, -⟩ | ⟨rfl, -⟩ <;> exact hc
  have hpending : v.cache.pending = w.cache.pending := by
    rcases hv with ⟨rfl, -⟩ | ⟨rfl, -⟩ <;> rfl
  have hwaits : ∀ t u, v.cache.WaitsOn t u → w.cache.WaitsOn t u := by
    rcases hv with ⟨rfl, -⟩ | ⟨rfl, -⟩
    · exact fun _ _ h => h
    · exact fun _ _ h => h.of_wake
  rw [cache_look, ← hpending]
  have hl := v.cache.looked me key
  generalize v.cache.lookup me key = r at hl hp ⊢
  obtain ⟨outcome, d⟩ := r
  cases hl with
  | off h0 => exact absurd h0 (Nat.ne_of_gt hcap)
  | hit => cases hp
  | claim hfree hnone =>
    refine .inl ⟨hnone, ?_⟩
    show (v.cache.pending.set key me).get? key = some me
    rw [Table.get?_set, if_pos rfl]
  | alone owner hfree howner hloop =>
    obtain ⟨owner', ho, hreach⟩ := Cache.closesLoop_iff.1 hloop
    exact .inr ⟨owner', ho, ho, ReflTransGen.mono hwaits _ _ hreach⟩
  | wait => cases hp

end World

end Stencil
