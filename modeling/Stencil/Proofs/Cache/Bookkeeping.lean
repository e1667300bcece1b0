import Stencil.Proofs.Cache.Claims
import Stencil.Proofs.Cache.Entries

/-!
# Bookkeeping on one thread

**A thread that is alone** (`World.Solo`). Every claim is its own, so it never waits, not even for a
key that it is parsing.

**Programs** (`Program`). What a thread may do with a cache, depending on what it finds; a parse is a
program too. A program that goes through `Cache.getOrParse` does what its acts do, one after another
(`Program.realized`).

**Books** (`World.run_alone`). At every moment of a run of one thread the entries, the claims and
the counters are in balance. A parse may evict, drop or store the very key whose parse it is part
of: what counts is whether the key has an entry when the value comes.
-/

namespace Stencil

universe u v w

variable {κ : Type u} {ν : Type v} [DecidableEq κ]

/-! ## A thread that is alone -/

namespace World

variable {w w' : World κ ν} {me t : Thread} {act : Act κ ν} {key : κ}

/-- Nobody sleeps, and every claim is the thread's own. -/
structure Solo (me : Thread) (w : World κ ν) : Prop where
  asleep : ∀ t, w.asleep t = none
  pending : ∀ key t, w.cache.pending.get? key = some t → t = me

theorem solo_start (me : Thread) (capacity : Nat) : (start capacity : World κ ν).Solo me :=
  ⟨fun _ => rfl, fun _ _ h => by cases h⟩

namespace Solo

theorem lookup_ne_wait (h : w.Solo me) (key : κ) : (w.cache.lookup me key).1 ≠ .wait :=
  Cache.lookup_ne_wait h.pending key

theorem look (h : w.Solo me) (key : κ) : (w.look me key).Solo me := by
  have hwait := h.lookup_ne_wait key
  unfold World.look
  rcases w.cache.lookup_cases me key with
    ⟨v, d, hl, hc⟩ | ⟨d, hl, -, hp, -⟩ | ⟨d, hl, hc⟩ | ⟨owner, hl, -, -⟩ <;> rw [hl] at hwait ⊢
  · exact ⟨h.asleep, fun key t ht => h.pending key t (hc.pending ▸ ht)⟩
  · refine ⟨h.asleep, fun key' t ht => ?_⟩
    rw [cache_setCalls, cache_setCache, hp, Table.get?_set] at ht
    split at ht
    · exact (Option.some.inj ht).symm
    · exact h.pending key' t ht
  · exact ⟨h.asleep, fun key t ht => h.pending key t (hc.pending ▸ ht)⟩
  · exact absurd rfl hwait

theorem step (h : w.Solo me) (hs : w.step me act = some w') : w'.Solo me := by
  rcases step_cases hs with ⟨key, -, rfl⟩ | ⟨key, hsleep, -⟩ | ⟨call, rest, value, -, -, rfl⟩ |
    ⟨call, rest, -, -, -, rfl⟩ | ⟨cache, hc, rfl⟩
  · exact h.look key
  · rw [h.asleep] at hsleep
    cases hsleep
  · refine ⟨h.asleep, fun key t ht => h.pending key t ?_⟩
    have hp := (Cache.SameClaims.insert w.cache call.key value).pending
    exact hp ▸ ht
  · refine ⟨h.asleep, fun key t ht => h.pending key t ?_⟩
    unfold World.close at ht
    rw [cache_setCalls, cache_setCache] at ht
    split at ht
    · have ht : (w.cache.pending.erase call.key).get? key = some t := ht
      rw [Table.get?_erase] at ht
      exact (Option.ite_none_left_eq_some.1 ht).2
    · exact ht
  · exact ⟨h.asleep, fun key t ht => h.pending key t (hc.pending ▸ ht)⟩

theorem run (h : w.Solo me) {acts : List (Act κ ν)} (hr : w.run (acts.map (me, ·)) = some w') :
    w'.Solo me := by
  induction acts generalizing w with
  | nil =>
    cases hr
    exact h
  | cons act rest ih =>
    obtain ⟨w₁, h₁, h₂⟩ := Option.bind_eq_some_iff.1 hr
    exact ih (h.step h₁) h₂

theorem isReady (h : w'.Solo me) (hc : w'.calls me = w.calls me) (hr : w.isReady me = true) :
    w'.isReady me = true := by
  unfold World.isReady at hr ⊢
  rw [h.asleep, hc]
  exact ((Bool.and_eq_true_iff).1 hr).2

end Solo

/-- The thread's acts lead from one world to the other. -/
def Leads (me : Thread) (acts : List (Act κ ν)) (w w' : World κ ν) : Prop :=
  w.run (acts.map (me, ·)) = some w'

namespace Leads

variable {w₁ w₂ w₃ : World κ ν} {acts more : List (Act κ ν)}

theorem refl (me : Thread) (w : World κ ν) : Leads me [] w w := rfl

theorem trans (h : Leads me acts w₁ w₂) (h' : Leads me more w₂ w₃) :
    Leads me (acts ++ more) w₁ w₃ := by
  unfold Leads
  rw [List.map_append, run_append, h]
  exact h'

theorem single (h : w.step me act = some w') : Leads me [act] w w' := (run_single w me act).trans h

theorem solo (h : Leads me acts w w') (hs : w.Solo me) : w'.Solo me := hs.run h

end Leads

end World

/-! ## Programs -/

/-- What a thread does with a cache, depending on what it finds, and its answer in the end. -/
inductive Program (κ : Type u) (ν : Type v) (ε : Type w) where
  | done (answer : Except ε ν)
  | lookup (key : κ) (parse : Program κ ν ε) (next : Except ε ν → Program κ ν ε)
  | get (key : κ) (next : Option ν → Program κ ν ε)
  | contains (key : κ) (next : Bool → Program κ ν ε)
  | invalidate (key : κ) (next : Bool → Program κ ν ε)
  | clear (next : Program κ ν ε)

namespace Program

variable {ε : Type w}

/-- Runs a program on a thread that is alone. -/
def run (me : Thread) : Program κ ν ε → Cache κ ν × Unit → Except ε ν × (Cache κ ν × Unit)
  | .done answer => fun s => (answer, s)
  | .lookup key parse next => fun s =>
    let (answer, s) := Cache.getOrParse me key (parse.run me) s
    (next answer).run me s
  | .get key next => fun (c, rest) => (next (c.get key).1).run me ((c.get key).2, rest)
  | .contains key next => fun (c, rest) => (next (c.contains key)).run me (c, rest)
  | .invalidate key next => fun (c, rest) =>
    (next (c.invalidate key).1).run me ((c.invalidate key).2, rest)
  | .clear next => fun (c, rest) => next.run me (c.clear, rest)

/-- The acts that end a parse. -/
def ending (claimed : Bool) : Except ε ν → List (Act κ ν)
  | .error _ => [.fail]
  | .ok value => .keep value :: if claimed then [.release] else []

/-- The acts of a lookup. Those of its parse are `inner`, and what it gives is `answer`. -/
def lookupActs (key : κ) (inner : Cache κ ν → List (Act κ ν)) (answer : Cache κ ν → Except ε ν) :
    Outcome ν × Cache κ ν → List (Act κ ν)
  | (.claim, c) => .lookup key :: (inner c ++ ending true (answer c))
  | (.alone, c) => .lookup key :: (inner c ++ ending false (answer c))
  -- A thread that is alone does not wait.
  | (.hit _, _) | (.wait, _) => [.lookup key]

/-- The acts of a program, in order. To ask whether a key is there is none. -/
def acts (me : Thread) : Program κ ν ε → Cache κ ν → List (Act κ ν)
  | .done _ => fun _ => []
  | .lookup key parse next => fun c =>
    let (answer, d, _) := Cache.getOrParse me key (parse.run me) (c, ())
    lookupActs key (parse.acts me) (fun c => (parse.run me (c, ())).1) (c.lookup me key) ++
      (next answer).acts me d
  | .get key next => fun c => .get key :: (next (c.get key).1).acts me (c.get key).2
  | .contains key next => fun c => (next (c.contains key)).acts me c
  | .invalidate key next => fun c =>
    .invalidate key :: (next (c.invalidate key).1).acts me (c.invalidate key).2
  | .clear next => fun c => .clear :: next.acts me c.clear

open World

variable {w : World κ ν} {me : Thread} {key : κ} {claimed : Bool} {rest : List (Call κ)}

/-- The end of a parse is one step, or two with a claim to give back. -/
theorem exists_conclude (hs : w.Solo me) (hc : w.calls me = ⟨key, claimed, false⟩ :: rest)
    (answer : Except ε ν) :
    ∃ w', Leads me (ending claimed answer) w w' ∧ w'.calls me = rest ∧
      w'.cache = (Cache.conclude claimed key (answer, (w.cache, ()))).2.1 := by
  have hr : w.isReady me = true := by
    unfold isReady
    rw [hs.asleep, hc]
    rfl
  cases answer with
  | error e =>
    have hfail : w.step me .fail = some (w.close me ⟨key, claimed, false⟩ rest) := by
      simp only [step, hr, hc]
    exact ⟨_, .single hfail, if_pos rfl, rfl⟩
  | ok v =>
    have hkeep : w.step me (.keep v) = some (w.keep me ⟨key, claimed, false⟩ rest v) := by
      simp only [step, hr, hc]
    cases claimed with
    | false => exact ⟨_, .single hkeep, if_pos rfl, rfl⟩
    | true =>
      have hcalls : (w.keep me ⟨key, true, false⟩ rest v).calls me = ⟨key, true, true⟩ :: rest :=
        if_pos rfl
      have hrelease : (w.keep me ⟨key, true, false⟩ rest v).step me .release =
          some ((w.keep me ⟨key, true, false⟩ rest v).close me ⟨key, true, true⟩ rest) := by
        have ha : (w.keep me ⟨key, true, false⟩ rest v).asleep me = none := hs.asleep me
        simp only [step, ha, hcalls, if_true]
      exact ⟨_, .trans (.single hkeep) (.single hrelease), if_pos rfl, rfl⟩

/-- The acts of the program do what it makes of a cache, and the calls that they open are over. -/
def Realized (me : Thread) (p : Program κ ν ε) : Prop :=
  ∀ w : World κ ν, w.Solo me → w.isReady me = true →
    ∃ w', Leads me (p.acts me w.cache) w w' ∧ w'.calls me = w.calls me ∧
      w'.cache = (p.run me (w.cache, ())).2.1

/-- What comes after acts that leave no call open. -/
theorem Realized.after {next : Program κ ν ε} (hn : next.Realized me) {w₁ : World κ ν}
    {acts : List (Act κ ν)} (hs : w.Solo me) (hr : w.isReady me = true) (hl : Leads me acts w w₁)
    (hc : w₁.calls me = w.calls me) :
    ∃ w', Leads me (acts ++ next.acts me w₁.cache) w w' ∧ w'.calls me = w.calls me ∧
      w'.cache = (next.run me (w₁.cache, ())).2.1 := by
  have hs₁ := hl.solo hs
  obtain ⟨w', hl', hc', hcache⟩ := hn w₁ hs₁ (hs₁.isReady hc hr)
  exact ⟨w', hl.trans hl', hc'.trans hc, hcache⟩

/-- A lookup that goes on to parse. -/
theorem Realized.conclude {parse : Program κ ν ε} (hp : parse.Realized me) {d : Cache κ ν}
    (hs : w.Solo me) (h₁ : w.step me (.lookup key) =
      some ((w.setCache d).setCalls me (⟨key, claimed, false⟩ :: w.calls me))) :
    ∃ w', Leads me
        (.lookup key :: (parse.acts me d ++ ending claimed (parse.run me (d, ())).1)) w w' ∧
      w'.calls me = w.calls me ∧
      w'.cache = (Cache.conclude claimed key (parse.run me (d, ()))).2.1 := by
  have hs₁ := hs.step h₁
  have hcalls : ((w.setCache d).setCalls me (⟨key, claimed, false⟩ :: w.calls me)).calls me =
      ⟨key, claimed, false⟩ :: w.calls me := if_pos rfl
  have hr₁ : ((w.setCache d).setCalls me (⟨key, claimed, false⟩ :: w.calls me)).isReady me =
      true := by
    unfold isReady
    rw [hs₁.asleep, hcalls]
    rfl
  obtain ⟨w₂, hl₂, hc₂, hcache₂⟩ := hp _ hs₁ hr₁
  obtain ⟨w₃, hl₃, hc₃, hcache₃⟩ :=
    exists_conclude (hl₂.solo hs₁) (hc₂.trans hcalls) (parse.run me (d, ())).1
  refine ⟨w₃, (Leads.single h₁).trans (hl₂.trans hl₃), hc₃, ?_⟩
  rw [hcache₃, hcache₂]
  rfl

/-- **A program does to a cache what its acts do.** -/
theorem realized (me : Thread) (p : Program κ ν ε) : p.Realized me := by
  induction p with
  | done answer => exact fun w _ _ => ⟨w, .refl me w, rfl, rfl⟩
  | lookup key parse next ihParse ihNext =>
    intro w hs hr
    have h₁ : w.step me (.lookup key) = some (w.look me key) := if_pos hr
    have hwait := hs.lookup_ne_wait key
    unfold look at h₁
    show ∃ w', Leads me
        (lookupActs key (parse.acts me) (fun c => (parse.run me (c, ())).1) (w.cache.lookup me key) ++
          (next (Cache.getOrParse me key (parse.run me) (w.cache, ())).1).acts me
            (Cache.getOrParse me key (parse.run me) (w.cache, ())).2.1) w w' ∧
      w'.calls me = w.calls me ∧
      w'.cache = ((next (Cache.getOrParse me key (parse.run me) (w.cache, ())).1).run me
        (Cache.getOrParse me key (parse.run me) (w.cache, ())).2).2.1
    rw [Cache.getOrParse_eq]
    generalize w.cache.lookup me key = r at h₁ hwait ⊢
    obtain ⟨outcome, d⟩ := r
    cases outcome with
    | hit v => exact (ihNext _).after hs hr (.single h₁) rfl
    | claim =>
      obtain ⟨w₃, hl₃, hc₃, hcache₃⟩ := ihParse.conclude hs h₁
      have h₄ := (ihNext (Cache.conclude true key (parse.run me (d, ()))).1).after hs hr hl₃ hc₃
      rw [hcache₃] at h₄
      exact h₄
    | alone =>
      obtain ⟨w₃, hl₃, hc₃, hcache₃⟩ := ihParse.conclude hs h₁
      have h₄ := (ihNext (Cache.conclude false key (parse.run me (d, ()))).1).after hs hr hl₃ hc₃
      rw [hcache₃] at h₄
      exact h₄
    | wait => exact absurd rfl hwait
  | get key next ih =>
    intro w hs hr
    have h₁ : w.step me (.get key) = some (w.setCache (w.cache.get key).2) := if_pos hr
    exact (ih _).after hs hr (.single h₁) rfl
  | contains key next ih => exact fun w hs hr => ih _ w hs hr
  | invalidate key next ih =>
    intro w hs hr
    have h₁ : w.step me (.invalidate key) = some (w.setCache (w.cache.invalidate key).2) :=
      if_pos hr
    exact (ih _).after hs hr (.single h₁) rfl
  | clear next ih =>
    intro w hs hr
    have h₁ : w.step me .clear = some (w.setCache w.cache.clear) := if_pos hr
    exact ih.after hs hr (.single h₁) rfl

end Program

/-! ## Books -/

namespace World

/-- **The books of one thread are in balance**, on a new cache that keeps anything, whatever the
thread does and however deep its parses are nested, whether they succeed or fail: there are no more
entries than there may be; the claimed keys are those of the open calls that have made a claim, and
none when no call is open; no lookup waits; lookups and uses that find their keys are hits or
misses, and the misses are the parses that have started; and every value that was stored under a key
without an entry is there, or was evicted, or was dropped on demand. The acts of a program are such a
run, and so is every beginning of them; they leave the cache as the program does. -/
theorem run_alone {ε : Type w} {capacity : Nat} (hc : 0 < capacity) (me : Thread) :
    (∀ (acts : List (Act κ ν)) (w : World κ ν),
      (start capacity).run (acts.map (me, ·)) = some w →
        w.cache.size ≤ capacity ∧
        (∀ key, w.cache.pending.has key = true ↔ key ∈ w.claims me) ∧
        (w.calls me = [] → w.cache.pending = []) ∧
        (∀ t, w.asleep t = none) ∧ (∀ key, (w.cache.lookup me key).1 ≠ .wait) ∧
        w.cache.hits + w.cache.misses =
          ((start capacity).trace called (acts.map (me, ·))).length +
            ((start capacity).trace found (acts.map (me, ·))).length ∧
        w.cache.misses = ((start capacity).trace started (acts.map (me, ·))).length ∧
        w.cache.size + w.cache.evictions +
            ((start capacity).trace dropped (acts.map (me, ·))).length =
          ((start capacity).trace stored (acts.map (me, ·))).length) ∧
      ∀ p : Program κ ν ε, ∃ w : World κ ν,
        (start capacity).run ((p.acts me (.ofCapacity capacity)).map (me, ·)) = some w ∧
          w.calls me = [] ∧ w.cache = (p.run me (.ofCapacity capacity, ())).2.1 := by
  constructor
  · intro acts w h
    have hs := (solo_start me capacity).run h
    have ht := run_tidy hc h
    have hm := run_marked h
    have htally := run_tallied hc h
    have hpending : ∀ key, w.cache.pending.has key = true ↔ key ∈ w.claims me := by
      intro key
      rw [← hm.pending, Table.has, Option.isSome_iff_exists]
      constructor
      · rintro ⟨t, hk⟩
        rw [hk, hs.pending key t hk]
      · exact fun hk => ⟨me, hk⟩
    refine ⟨ht.size.trans_eq ht.capacity, hpending, fun hcalls => ?_, hs.asleep, hs.lookup_ne_wait,
      ?_, htally.parsed.trans (Nat.zero_add _), htally.stored.trans (Nat.zero_add _)⟩
    · refine Table.eq_nil_of_get? fun key => Option.not_isSome_iff_eq_none.1 fun hk => ?_
      have hclaim := (hpending key).1 hk
      unfold claims at hclaim
      rw [hcalls] at hclaim
      cases hclaim
    · have hlooked := htally.looked
      rw [Cache.lookCount, (run_orderly h).waiting_eq_nil hs.asleep] at hlooked
      exact hlooked.trans (congrArg (· + _) (Nat.zero_add _))
  · exact fun p => p.realized me (start capacity) (solo_start me capacity) rfl

/-- The parse of a key looks up the same key, which is parsed within and stored, and another, which
evicts it and is dropped before the first parse is over. -/
theorem run_alone_nested :
    ∃ (acts : List (Act Nat Char)) (w : World Nat Char),
      acts = [.lookup 0, .lookup 0, .keep 'a', .lookup 1, .keep 'b', .release, .invalidate 1] ∧
      (start 1).run (acts.map (5, ·)) = some w ∧ w.cache.size ≤ 1 ∧
      (∀ key, w.cache.pending.has key = true ↔ key ∈ w.claims 5) ∧ w.claims 5 = [0] ∧
      (∀ key, (w.cache.lookup 5 key).1 ≠ .wait) ∧
      w.cache.hits + w.cache.misses = 3 ∧ w.cache.misses = 3 ∧
      w.cache.size + w.cache.evictions + 1 = 2 ∧
      ∃ (p : Program Nat Char Unit) (w' : World Nat Char),
        p = .lookup 0 (.lookup 0 (.done (.ok 'a')) fun answer => .done answer)
          (fun answer => .done answer) ∧
        p.acts 5 (.ofCapacity 1) = [.lookup 0, .lookup 0, .keep 'a', .keep 'a', .release] ∧
        (start 1).run ((p.acts 5 (.ofCapacity 1)).map (5, ·)) = some w' ∧ w'.calls 5 = [] ∧
          w'.cache.entries.keys = [0] := by
  generalize hacts : [.lookup 0, .lookup 0, .keep 'a', .lookup 1, .keep 'b', .release,
    (.invalidate 1 : Act Nat Char)] = acts
  obtain ⟨w, h⟩ : ∃ w, (start 1).run (acts.map (5, ·)) = some w :=
    Option.isSome_iff_exists.1 (by subst hacts; rfl)
  have hcalled : (start 1).trace called (acts.map (5, ·)) = [0, 0, 1] := by subst hacts; rfl
  have hfound : (start 1).trace found (acts.map (5, ·)) = [] := by subst hacts; rfl
  have hstarted : (start 1).trace started (acts.map (5, ·)) = [0, 0, 1] := by subst hacts; rfl
  have hdropped : (start 1).trace dropped (acts.map (5, ·)) = [1] := by subst hacts; rfl
  have hstored : (start 1).trace stored (acts.map (5, ·)) = [0, 1] := by subst hacts; rfl
  have hclaims : ((start 1).run (acts.map (5, ·))).map (World.claims · 5) = some [0] := by
    subst hacts
    rfl
  rw [h, Option.map_some, Option.some.injEq] at hclaims
  obtain ⟨hruns, hprograms⟩ := @run_alone Nat Char _ Unit 1 (by decide) 5
  obtain ⟨hsize, hpending, -, -, hwait, hlooked, hmisses, hentries⟩ := hruns acts w h
  rw [hcalled, hfound] at hlooked
  rw [hstarted] at hmisses
  rw [hdropped, hstored] at hentries
  obtain ⟨w', h', hcalls', hcache'⟩ := hprograms
    (.lookup 0 (.lookup 0 (.done (.ok 'a')) fun answer => .done answer) fun answer => .done answer)
  refine ⟨acts, w, rfl, h, hsize, hpending, hclaims, hwait, hlooked, hmisses, hentries, _, w', rfl,
    rfl, h', hcalls', ?_⟩
  rw [hcache']
  rfl

end World

end Stencil
