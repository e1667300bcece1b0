import Stencil.Cache.Basic

/-!
# Threads on one cache

**Calls** (`Call`). A lookup that goes on to parse is open until its parse is over. The parse may
look up other keys, so each thread has a stack of open calls.

**Steps** (`World.step`). Each is one section under the lock. A thread that waits sleeps until it
looks again, which it may do at any time; its entry among the waiting threads goes in the same
section. A parse that fails or panics gives its claim back. One that succeeds keeps its value first,
and gives its claim back in a section of its own.

**Runs** (`World.run`). The steps of any threads in any order.
-/

namespace Stencil

universe u v

/-- A lookup whose parse is not over. -/
structure Call (κ : Type u) where
  key : κ
  /-- The call has claimed its key. -/
  claimed : Bool
  /-- The parsed value is kept, and only the claim is left to be given back. -/
  kept : Bool
  deriving DecidableEq, Repr

/-- What a thread may do to the cache. -/
inductive Act (κ : Type u) (ν : Type v) where
  | lookup (key : κ)
  /-- Looks again, after a wait. -/
  | resume
  /-- The innermost parse gives a value. -/
  | keep (value : ν)
  /-- The innermost parse fails or panics. -/
  | fail
  /-- The claim of a parse that gave a value is given back. -/
  | release
  | get (key : κ)
  | invalidate (key : κ)
  | clear

/-- A cache and the threads that use it. -/
structure World (κ : Type u) (ν : Type v) where
  cache : Cache κ ν
  /-- The open calls of each thread, the innermost first. -/
  calls : Thread → List (Call κ)
  /-- The key that each sleeping thread waits for. -/
  asleep : Thread → Option κ

namespace World

/-! ## Fields -/

variable {κ : Type u} {ν : Type v}

/-- A new cache, and no thread at work. -/
def start (capacity : Nat) : World κ ν := ⟨.ofCapacity capacity, fun _ => [], fun _ => none⟩

def setCalls (w : World κ ν) (me : Thread) (calls : List (Call κ)) : World κ ν :=
  { w with calls := fun t => if t = me then calls else w.calls t }

def setAsleep (w : World κ ν) (me : Thread) (key? : Option κ) : World κ ν :=
  { w with asleep := fun t => if t = me then key? else w.asleep t }

def setCache (w : World κ ν) (cache : Cache κ ν) : World κ ν := { w with cache }

/-- The thread is awake and has no claim to give back before anything else. -/
def isReady (w : World κ ν) (me : Thread) : Bool :=
  (w.asleep me).isNone && !(w.calls me).head?.any Call.kept

/-- A lookup of the thread is in progress. -/
def Busy (w : World κ ν) (t : Thread) : Prop := (w.asleep t).isSome = true ∨ w.calls t ≠ []

theorem asleep_of_isReady {w : World κ ν} {me : Thread} (h : w.isReady me = true) :
    w.asleep me = none := by
  unfold isReady at h
  rw [Bool.and_eq_true, Option.isNone_iff_eq_none] at h
  exact h.1

section Fields

variable (w : World κ ν) (me t : Thread) (calls : List (Call κ)) (key? : Option κ)
  (cache : Cache κ ν)

@[simp] theorem cache_setCalls : (w.setCalls me calls).cache = w.cache := rfl

@[simp] theorem asleep_setCalls : (w.setCalls me calls).asleep = w.asleep := rfl

@[simp] theorem calls_setCalls :
    (w.setCalls me calls).calls t = if t = me then calls else w.calls t := rfl

@[simp] theorem cache_setAsleep : (w.setAsleep me key?).cache = w.cache := rfl

@[simp] theorem calls_setAsleep : (w.setAsleep me key?).calls = w.calls := rfl

@[simp] theorem asleep_setAsleep :
    (w.setAsleep me key?).asleep t = if t = me then key? else w.asleep t := rfl

@[simp] theorem cache_setCache : (w.setCache cache).cache = cache := rfl

@[simp] theorem calls_setCache : (w.setCache cache).calls = w.calls := rfl

@[simp] theorem asleep_setCache : (w.setCache cache).asleep = w.asleep := rfl

end Fields

/-! ## Steps -/

variable [DecidableEq κ]

/-- A thread looks for a key: it opens a call, or it falls asleep, unless the key is there. -/
def look (w : World κ ν) (me : Thread) (key : κ) : World κ ν :=
  match w.cache.lookup me key with
  | (.hit _, cache) => w.setCache cache
  | (.claim, cache) => (w.setCache cache).setCalls me (⟨key, true, false⟩ :: w.calls me)
  | (.alone, cache) => (w.setCache cache).setCalls me (⟨key, false, false⟩ :: w.calls me)
  | (.wait, cache) => (w.setCache cache).setAsleep me (some key)

/-- A sleeping thread is awake again. -/
def rise (w : World κ ν) (me : Thread) : World κ ν :=
  (w.setCache (w.cache.wake me)).setAsleep me none

/-- The parse of a call has given a value. -/
def keep (w : World κ ν) (me : Thread) (call : Call κ) (rest : List (Call κ)) (value : ν) :
    World κ ν :=
  (w.setCache (w.cache.insert call.key value)).setCalls me
    (if call.claimed then { call with kept := true } :: rest else rest)

/-- A call is over. -/
def close (w : World κ ν) (me : Thread) (call : Call κ) (rest : List (Call κ)) : World κ ν :=
  (w.setCache (if call.claimed then w.cache.release call.key else w.cache)).setCalls me rest

/-- What the world is after a thread's act, if the thread can do that now. -/
def step (w : World κ ν) (me : Thread) : Act κ ν → Option (World κ ν)
  | .lookup key => if w.isReady me then some (w.look me key) else none
  | .resume => (w.asleep me).map ((w.rise me).look me)
  | .keep value =>
    match w.isReady me, w.calls me with
    | true, call :: rest => some (w.keep me call rest value)
    | _, _ => none
  | .fail =>
    match w.isReady me, w.calls me with
    | true, call :: rest => some (w.close me call rest)
    | _, _ => none
  | .release =>
    match w.asleep me, w.calls me with
    | none, call :: rest => if call.kept then some (w.close me call rest) else none
    | _, _ => none
  | .get key => if w.isReady me then some (w.setCache (w.cache.get key).2) else none
  | .invalidate key => if w.isReady me then some (w.setCache (w.cache.invalidate key).2) else none
  | .clear => if w.isReady me then some (w.setCache w.cache.clear) else none

/-- Acts of threads, one after another. -/
def run (w : World κ ν) : List (Thread × Act κ ν) → Option (World κ ν)
  | [] => some w
  | (me, act) :: rest => (w.step me act).bind fun w => w.run rest

end World

end Stencil
