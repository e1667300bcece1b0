import Stencil.Cache.Run
import Stencil.Proofs.Cache.Sections
import Stencil.Proofs.Parsing.Run

/-!
# What a cache keeps

**Good entries** (`Cache.Holds`). Every entry is a good value for its key, and every claim is that
of one thread. Each operation of the cache keeps this, as long as what it is given is good.

**One lookup** (`Cache.Holds.getOrParse`). If good values are exactly what a parse of the key may
answer, then so is what a lookup answers, whether it finds the key or parses. A thread that holds
every claim never waits, so the parse is the only other way.

**Parsing through a cache** (`Parsing.Runs.cached`). The rule for a parser's lookups, with caching
or without.

**Conditions on all templates** (`Parser.Hereditary`). What a source passes on from its includes
holds of every template a parser gives, as long as it holds of those in the cache.
-/

namespace Stencil

universe u v w x

namespace Cache

variable {κ : Type u} {ν : Type v} [DecidableEq κ] {good : κ → ν → Prop} {me : Thread}
  {c : Cache κ ν} {key : κ} {value : ν}

/-- Every entry is good for its key, and every claim is the thread's own. -/
structure Holds (good : κ → ν → Prop) (me : Thread) (c : Cache κ ν) : Prop where
  entries : ∀ key value, (key, value) ∈ c.entries → good key value
  claims : ∀ key t, c.pending.get? key = some t → t = me

theorem Holds.ofCapacity (n : Nat) : Holds good me (Cache.ofCapacity n : Cache κ ν) where
  entries := fun _ _ h => absurd h List.not_mem_nil
  claims := fun _ _ h => by cases h

theorem Holds.clear (h : Holds good me c) : Holds good me c.clear where
  entries := fun _ _ h => absurd h List.not_mem_nil
  claims := h.claims

theorem Holds.invalidate (h : Holds good me c) (key : κ) : Holds good me (c.invalidate key).2 where
  entries := fun k v hm => h.entries k v (List.mem_filter.1 hm).1
  claims := h.claims

theorem Holds.release (h : Holds good me c) (key : κ) : Holds good me (c.release key) where
  entries := h.entries
  claims := fun k t hk => by
    simp only [Cache.release, Table.get?_erase] at hk
    split at hk
    · cases hk
    · exact h.claims k t hk

/-- A use of an entry moves it to the front. -/
theorem Holds.front (h : Holds good me c) (hv : c.entries.get? key = some value) (hits : Nat) :
    Holds good me { c with entries := (key, value) :: c.entries.erase key, hits } where
  entries := fun k v hm => by
    rcases List.mem_cons.1 hm with he | hm
    · cases he
      exact h.entries key value (Table.mem_of_get? hv)
    · exact h.entries k v (List.mem_filter.1 hm).1
  claims := h.claims

theorem Holds.insert (h : Holds good me c) (hv : good key value) :
    Holds good me (c.insert key value) := by
  -- The entries afterwards are the new one and some of those before.
  have hs : ∀ rest : Table κ ν, rest ⊆ c.entries → ∀ k v, (k, v) ∈ (key, value) :: rest → good k v := by
    intro rest hr k v hm
    rcases List.mem_cons.1 hm with he | hm
    · cases he
      exact hv
    · exact h.entries k v (hr hm)
  have hi := c.inserted key value
  generalize c.insert key value = d at hi ⊢
  cases hi with
  | off => exact h
  | replace => exact ⟨hs _ fun _ hm => (List.mem_filter.1 hm).1, h.claims⟩
  | room => exact ⟨hs _ (List.Subset.refl _), h.claims⟩
  | evict => exact ⟨hs _ (List.dropLast_subset _), h.claims⟩

theorem Holds.finish (h : Holds good me c) (claimed : Bool) {value? : Option ν}
    (hv : ∀ v, value? = some v → good key v) : Holds good me (c.finish claimed key value?) := by
  unfold Cache.finish
  cases value? with
  | none =>
    cases claimed with
    | false => exact h
    | true => exact h.release key
  | some v =>
    have hi := h.insert (hv v rfl)
    cases claimed with
    | false => exact hi
    | true => exact hi.release key

/-- Finding a key without parsing finds a good value. -/
theorem Holds.get (h : Holds good me c) (key : κ) :
    Holds good me (c.get key).2 ∧ ∀ v, (c.get key).1 = some v → good key v := by
  rcases c.get_cases key with ⟨v, hv, hg⟩ | ⟨-, hg⟩
  · rw [hg]
    refine ⟨h.front hv _, fun w hw => ?_⟩
    rw [← Option.some.inj hw]
    exact h.entries key v (Table.mem_of_get? hv)
  · rw [hg]
    exact ⟨h, nofun⟩

/-- A lookup that finds its key finds a good value, and it never waits. -/
theorem Holds.lookup (h : Holds good me c) (key : κ) :
    Holds good me (c.lookup me key).2 ∧
      match (c.lookup me key).1 with
      | .hit v => good key v
      | .claim | .alone => True
      | .wait => False := by
  have hw := lookup_ne_wait h.claims key
  have hl := c.looked me key
  generalize c.lookup me key = r at hw hl ⊢
  obtain ⟨outcome, d⟩ := r
  cases hl with
  | off => exact ⟨⟨h.entries, h.claims⟩, trivial⟩
  | hit v hv => exact ⟨h.front hv _, h.entries key v (Table.mem_of_get? hv)⟩
  | claim =>
    refine ⟨⟨h.entries, fun k t hk => ?_⟩, trivial⟩
    rw [Table.get?_set] at hk
    split at hk
    · cases hk
      rfl
    · exact h.claims k t hk
  | alone => exact ⟨⟨h.entries, h.claims⟩, trivial⟩
  | wait => exact absurd rfl hw

section Conclusion

variable {ε : Type w} {τ : Type x} {claimed : Bool} {r : Except ε ν × (Cache κ ν × τ)}

/-- What comes of a parse of a key: its value is stored, and a claim of the key ends. -/
def conclude (claimed : Bool) (key : κ) :
    Except ε ν × (Cache κ ν × τ) → Except ε ν × (Cache κ ν × τ)
  | (.ok v, (c, rest)) => (.ok v, (c.finish claimed key (some v), rest))
  | (.error e, (c, rest)) => (.error e, (c.finish claimed key none, rest))

@[simp] theorem conclude_answer : (conclude claimed key r).1 = r.1 := by
  obtain ⟨a, c, rest⟩ := r
  cases a with
  | ok v => rfl
  | error e => rfl

@[simp] theorem conclude_rest : (conclude claimed key r).2.2 = r.2.2 := by
  obtain ⟨a, c, rest⟩ := r
  cases a with
  | ok v => rfl
  | error e => rfl

theorem Holds.conclude (h : Holds good me r.2.1) (claimed : Bool)
    (hgood : ∀ v, r.1 = .ok v → good key v) : Holds good me (conclude claimed key r).2.1 := by
  obtain ⟨a, c, rest⟩ := r
  cases a with
  | ok v =>
    have hv : ∀ w, some v = some w → good key w := fun w hw => by
      rw [← Option.some.inj hw]
      exact hgood v rfl
    exact h.finish claimed hv
  | error e =>
    have hv : ∀ w, none = some w → good key w := fun w hw => nomatch hw
    exact h.finish claimed hv

/-- A lookup finds its key, or concludes a parse of it. -/
theorem getOrParse_eq (parse : Cache κ ν × τ → Except ε ν × (Cache κ ν × τ)) (c : Cache κ ν)
    (rest : τ) :
    Cache.getOrParse me key parse (c, rest) =
      match c.lookup me key with
      | (.hit v, c) => (.ok v, (c, rest))
      | (.claim, c) => Cache.conclude true key (parse (c, rest))
      | (.alone, c) => Cache.conclude false key (parse (c, rest))
      | (.wait, c) => Cache.conclude false key (parse (c.wake me, rest)) := rfl

/-- **A lookup on one thread keeps good entries and answers what a parse of the key may.** -/
theorem Holds.getOrParse {post : Except ε ν → Prop}
    {parse : Cache κ ν × τ → Except ε ν × (Cache κ ν × τ)} {rest : τ} (h : Holds good me c)
    (hparse : ∀ c, Holds good me c →
      post (parse (c, rest)).1 ∧ Holds good me (parse (c, rest)).2.1)
    (hgood : ∀ v, post (.ok v) → good key v) (hpost : ∀ v, good key v → post (.ok v)) :
    post (Cache.getOrParse me key parse (c, rest)).1 ∧
      Holds good me (Cache.getOrParse me key parse (c, rest)).2.1 := by
  have hrun : ∀ claimed c, Holds good me c →
      post (Cache.conclude claimed key (parse (c, rest))).1 ∧
        Holds good me (Cache.conclude claimed key (parse (c, rest))).2.1 := by
    intro claimed c hc
    obtain ⟨hp, hh⟩ := hparse c hc
    rw [conclude_answer]
    refine ⟨hp, hh.conclude claimed fun v hv => hgood v ?_⟩
    rw [hv] at hp
    exact hp
  obtain ⟨hc, ho⟩ := h.lookup key
  rw [getOrParse_eq]
  cases hl : c.lookup me key with
  | mk outcome c' =>
    rw [hl] at hc ho
    cases outcome with
    | hit v => exact ⟨hpost v ho, hc⟩
    | claim => exact hrun true c' hc
    | alone => exact hrun false c' hc
    | wait => exact ho.elim

end Conclusion

end Cache

/-- **The rule for a lookup of the parser.** What the parse may answer must be exactly the good
values of the source. -/
theorem Parsing.Runs.cached {good : SourceId → Template → Prop} {p : Parser} {id : SourceId}
    {parse : Parsing Template} {post : Except LoadError Template → Prop}
    (hparse : Runs (Cache.Holds good 0) parse post) (hgood : ∀ t, post (.ok t) → good id t)
    (hpost : ∀ t, good id t → post (.ok t)) :
    Runs (Cache.Holds good 0) (p.cached id parse) post := by
  unfold Parser.cached
  split
  · intro b hb
    exact hb.getOrParse (fun c hc => hparse (c, b.2) hc) hgood hpost
  · exact hparse

/-- A source that the cache has nothing of is read and parsed, with a claim or without. -/
theorem Parser.loadId_of_missed {p : Parser} {id : SourceId} {source : Text}
    {c c' : Cache SourceId Template} (hcaching : p.caching = true) (claimed : Bool)
    (hmissed : c.lookup 0 id = (if claimed then .claim else .alone, c'))
    (hread : p.readText id = .ok source) (n : Nat) (stack : List SourceId) (serial : Nat) :
    (p.loadId (n + 1) stack id).on (c, serial) =
      Cache.conclude claimed id
        ((p.parseWith (p.loadIncluded (p.loadId n (stack ++ [id])) (stack ++ [id])) (some id)
          source).on (c', serial)) := by
  rw [loadId, cached, if_pos hcaching]
  refine (Cache.getOrParse_eq _ c serial).trans ?_
  rw [hmissed, hread]
  cases claimed <;> rfl

/-! ## Conditions on all templates -/

/-- A source meets the condition whenever its includes do. -/
def Parser.Hereditary (p : Parser) (good : Template → Prop) : Prop :=
  ∀ inv load id source, (∀ d path pos, Parsing.Ensures inv (load d path pos) good) →
    Parsing.Ensures inv (p.parseWith load id source) good

namespace Parsing

variable {p : Parser} {good : Template → Prop} {inv : Cache SourceId Template → Prop}

theorem Ensures.loadIncluded {load : SourceId → Parsing Template} {stack : List SourceId}
    (h : ∀ id, Ensures inv (load id) good) (d : Draft) (path : Text) (pos : Nat) :
    Ensures inv (p.loadIncluded load stack d path pos) good := by
  refine .lift_bind fun id? _ => ?_
  cases id? with
  | none => exact .throw _
  | some id =>
    show Ensures inv (if stack.contains id then _ else _) good
    split
    · exact .bind (.throw _) fun _ (_ : True) => h id
    · exact h id

/-- **Every template that is loaded meets a hereditary condition, if all cached ones do.** -/
theorem Ensures.loadId (hp : p.Hereditary good) (n : Nat) (stack : List SourceId) (id : SourceId) :
    Ensures (Cache.Holds (fun _ => good) 0) (p.loadId n stack id) good := by
  induction n generalizing stack id with
  | zero => exact .throw _
  | succ n ih =>
    refine Runs.cached ?_ (fun t h => h t rfl) fun t h t' he => ?_
    · show Ensures _ _ _
      refine .lift_bind fun source _ => ?_
      exact hp _ _ _ _ fun d path pos => .loadIncluded (fun id => ih _ id) d path pos
    · cases he
      exact h

theorem Ensures.load (hp : p.Hereditary good) (path : Text) :
    Ensures (Cache.Holds (fun _ => good) 0) (p.load path) good := by
  refine .lift_bind fun id? _ => ?_
  cases id? with
  | none => exact .throw _
  | some id => exact .loadId hp _ _ id

theorem Ensures.parseText (hp : p.Hereditary good) (source : Text) :
    Ensures (Cache.Holds (fun _ => good) 0) (p.parseText source) good :=
  hp _ _ _ _ fun d path pos => .loadIncluded (.loadId hp _ _) d path pos

theorem Ensures.parseSource (hp : p.Hereditary good) (id : SourceId) (source : Text) :
    Ensures (Cache.Holds (fun _ => good) 0) (p.parseSource id source) good :=
  hp _ _ _ _ fun d path pos => .loadIncluded (.loadId hp _ _) d path pos

end Parsing

end Stencil
