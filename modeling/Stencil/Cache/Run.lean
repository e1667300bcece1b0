import Stencil.Cache.Basic

/-!
# Getting or parsing on one thread

`Cache.getOrParse` puts the steps of one lookup together for a thread that is alone. The parse
itself may use the cache, so it takes the cache and gives it back, together with whatever else it
carries along. A failed parse keeps nothing and gives its claim back.

A thread that is alone never has to wait: every claim is its own.
-/

namespace Stencil

universe u v w x

namespace Cache

variable {κ : Type u} {ν : Type v} [DecidableEq κ]

/-- The end of a parse: a value is kept, and a claim is given back. -/
def finish (c : Cache κ ν) (claimed : Bool) (key : κ) (value? : Option ν) : Cache κ ν :=
  let c := match value? with
    | some v => c.insert key v
    | none => c
  if claimed then c.release key else c

/-- The cached value of a key, or the value that `parse` gives, which is kept. -/
def getOrParse {ε : Type w} {τ : Type x} (me : Thread) (key : κ)
    (parse : Cache κ ν × τ → Except ε ν × (Cache κ ν × τ)) :
    Cache κ ν × τ → Except ε ν × (Cache κ ν × τ)
  | (c, rest) =>
    let run (claimed : Bool) (c : Cache κ ν) :=
      match parse (c, rest) with
      | (.ok v, (c, rest)) => (.ok v, (c.finish claimed key (some v), rest))
      | (.error e, (c, rest)) => (.error e, (c.finish claimed key none, rest))
    match c.lookup me key with
    | (.hit v, c) => (.ok v, (c, rest))
    | (.claim, c) => run true c
    | (.alone, c) => run false c
    | (.wait, c) => run false (c.wake me)

/-- If every claim is the thread's own, a lookup does not wait. -/
theorem lookup_ne_wait {c : Cache κ ν} {me : Thread} (h : ∀ k t, c.pending.get? k = some t → t = me)
    (key : κ) : (c.lookup me key).1 ≠ .wait := by
  simp only [lookup]
  split
  · simp
  · cases hg : c.get key with
    | mk v? c' =>
      cases v? with
      | some v => simp
      | none =>
        have hc : c' = c := by
          simp only [get] at hg
          split at hg
          · simp at hg
          · simpa using hg.symm
        subst hc
        simp only
        split
        · simp
        · rename_i hp
          have hp : c'.pending.has key = true := by simpa using hp
          obtain ⟨t, ht⟩ := Option.isSome_iff_exists.1 hp
          have hl : c'.closesLoop me key = true := by
            simp [closesLoop, reaches, ht, h key t ht]
          simp [hl]

end Cache

end Stencil
