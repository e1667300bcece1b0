import Stencil.Cache.Threads
import Stencil.Proofs.Cache.Sections
import Mathlib.Data.List.Induction

/-!
# Threads step by step

**Steps** (`World.Stepped`, `World.step_cases`). A step is a look for a key, the end of a parse, or
a call on the entries alone. Proofs about runs go by these cases and open no function of the cache.

**Runs** (`World.run_induction`). Runs can be taken apart, and grow by one step at their end
(`World.run_snoc_induction`).
-/

namespace Stencil

universe u v

variable {κ : Type u} {ν : Type v} [DecidableEq κ]

/-! ## Steps -/

namespace World

variable {w w' : World κ ν} {me : Thread} {act : Act κ ν}

omit [DecidableEq κ] in
theorem kept_of_isReady {call : Call κ} {rest : List (Call κ)} (h : w.isReady me = true)
    (hcalls : w.calls me = call :: rest) : call.kept = false := by
  unfold isReady at h
  rw [hcalls, Bool.and_eq_true, Bool.not_eq_true'] at h
  exact h.2

/-- What an act of a thread makes of a world, where it can be done. -/
inductive Stepped (w : World κ ν) (me : Thread) : Act κ ν → World κ ν → Prop
  | lookup (key : κ) (ready : w.isReady me = true) : Stepped w me (.lookup key) (w.look me key)
  | resume (key : κ) (sleeps : w.asleep me = some key) :
      Stepped w me .resume ((w.rise me).look me key)
  | keep (call : Call κ) (rest : List (Call κ)) (value : ν) (ready : w.isReady me = true)
      (calls : w.calls me = call :: rest) : Stepped w me (.keep value) (w.keep me call rest value)
  | fail (call : Call κ) (rest : List (Call κ)) (ready : w.isReady me = true)
      (calls : w.calls me = call :: rest) : Stepped w me .fail (w.close me call rest)
  | release (call : Call κ) (rest : List (Call κ)) (awake : w.asleep me = none)
      (kept : call.kept = true) (calls : w.calls me = call :: rest) :
      Stepped w me .release (w.close me call rest)
  | get (key : κ) (ready : w.isReady me = true) :
      Stepped w me (.get key) (w.setCache (w.cache.get key).2)
  | invalidate (key : κ) (ready : w.isReady me = true) :
      Stepped w me (.invalidate key) (w.setCache (w.cache.invalidate key).2)
  | clear (ready : w.isReady me = true) : Stepped w me .clear (w.setCache w.cache.clear)

theorem stepped (h : w.step me act = some w') : w.Stepped me act w' := by
  cases act with
  | lookup key =>
    obtain ⟨hr, h⟩ := Option.ite_none_right_eq_some.1 h
    cases h
    exact .lookup key hr
  | resume =>
    obtain ⟨key, hk, rfl⟩ := Option.map_eq_some_iff.1 h
    exact .resume key hk
  | keep value =>
    simp only [step] at h
    split at h
    · rename_i call rest hr hc
      cases h
      exact .keep call rest value hr hc
    · cases h
  | fail =>
    simp only [step] at h
    split at h
    · rename_i call rest hr hc
      cases h
      exact .fail call rest hr hc
    · cases h
  | release =>
    simp only [step] at h
    split at h
    · rename_i call rest ha hc
      obtain ⟨hk, h⟩ := Option.ite_none_right_eq_some.1 h
      cases h
      exact .release call rest ha hk hc
    · cases h
  | get key =>
    obtain ⟨hr, h⟩ := Option.ite_none_right_eq_some.1 h
    cases h
    exact .get key hr
  | invalidate key =>
    obtain ⟨hr, h⟩ := Option.ite_none_right_eq_some.1 h
    cases h
    exact .invalidate key hr
  | clear =>
    obtain ⟨hr, h⟩ := Option.ite_none_right_eq_some.1 h
    cases h
    exact .clear hr

/-- **A step looks for a key, ends a parse, or touches entries only.** -/
theorem step_cases (h : w.step me act = some w') :
    (∃ key, w.isReady me = true ∧ w' = w.look me key) ∨
      (∃ key, w.asleep me = some key ∧ w' = (w.rise me).look me key) ∨
      (∃ call rest value, w.isReady me = true ∧ w.calls me = call :: rest ∧
        w' = w.keep me call rest value) ∨
      (∃ call rest, w.asleep me = none ∧ (w.isReady me = true ∨ call.kept = true) ∧
        w.calls me = call :: rest ∧ w' = w.close me call rest) ∨
      ∃ cache, w.cache.SameClaims cache ∧ w' = w.setCache cache := by
  cases stepped h with
  | lookup key hr => exact .inl ⟨key, hr, rfl⟩
  | resume key hk => exact .inr (.inl ⟨key, hk, rfl⟩)
  | keep call rest value hr hc => exact .inr (.inr (.inl ⟨call, rest, value, hr, hc, rfl⟩))
  | fail call rest hr hc =>
    exact .inr (.inr (.inr (.inl ⟨call, rest, asleep_of_isReady hr, .inl hr, hc, rfl⟩)))
  | release call rest ha hk hc =>
    exact .inr (.inr (.inr (.inl ⟨call, rest, ha, .inr hk, hc, rfl⟩)))
  | get key => exact .inr (.inr (.inr (.inr ⟨_, .get w.cache key, rfl⟩)))
  | invalidate key =>
    exact .inr (.inr (.inr (.inr ⟨(w.cache.invalidate key).2, ⟨rfl, rfl⟩, rfl⟩)))
  | clear => exact .inr (.inr (.inr (.inr ⟨w.cache.clear, ⟨rfl, rfl⟩, rfl⟩)))

/-- A step of a thread leaves the calls and the sleep of the others. -/
theorem step_others (h : w.step me act = some w') {t : Thread} (ht : t ≠ me) :
    w'.asleep t = w.asleep t ∧ w'.calls t = w.calls t := by
  have hlook : ∀ (v : World κ ν) key,
      (v.look me key).asleep t = v.asleep t ∧ (v.look me key).calls t = v.calls t := by
    intro v key
    unfold look
    rcases v.cache.lookup_cases me key with
      ⟨_, d, hl, -⟩ | ⟨d, hl, -⟩ | ⟨d, hl, -⟩ | ⟨_, hl, -⟩ <;> rw [hl]
    · exact ⟨rfl, rfl⟩
    · exact ⟨rfl, if_neg ht⟩
    · exact ⟨rfl, if_neg ht⟩
    · exact ⟨if_neg ht, rfl⟩
  rcases step_cases h with ⟨key, -, rfl⟩ | ⟨key, -, rfl⟩ | ⟨call, rest, value, -, -, rfl⟩ |
    ⟨call, rest, -, -, -, rfl⟩ | ⟨cache, -, rfl⟩
  · exact hlook w key
  · exact ⟨(hlook (w.rise me) key).1.trans (if_neg ht), (hlook (w.rise me) key).2⟩
  · exact ⟨rfl, if_neg ht⟩
  · exact ⟨rfl, if_neg ht⟩
  · exact ⟨rfl, rfl⟩

/-- What holds at the start of a run and is kept by every step holds at the end of the run. -/
theorem run_induction {motive : World κ ν → Prop}
    (step : ∀ w w' me act, motive w → w.step me act = some w' → motive w')
    {acts : List (Thread × Act κ ν)} (hw : motive w) (h : w.run acts = some w') : motive w' := by
  induction acts generalizing w with
  | nil =>
    cases h
    exact hw
  | cons a rest ih =>
    obtain ⟨w₁, h₁, h₂⟩ := Option.bind_eq_some_iff.1 h
    exact ih (step w w₁ a.1 a.2 hw h₁) h₂

/-- A run leaves the calls and the sleep of threads that do nothing in it. -/
theorem run_others {t : Thread} {acts : List (Thread × Act κ ν)} (h : w.run acts = some w')
    (ht : t ∉ acts.map Prod.fst) : w'.asleep t = w.asleep t ∧ w'.calls t = w.calls t := by
  induction acts generalizing w with
  | nil =>
    cases h
    exact ⟨rfl, rfl⟩
  | cons a rest ih =>
    obtain ⟨w₁, h₁, h₂⟩ := Option.bind_eq_some_iff.1 h
    obtain ⟨hne, hrest⟩ := not_or.1 (mt List.mem_cons.2 ht)
    obtain ⟨ha, hc⟩ := step_others h₁ hne
    obtain ⟨ha', hc'⟩ := ih h₂ hrest
    exact ⟨ha'.trans ha, hc'.trans hc⟩

theorem run_append (w : World κ ν) (acts more : List (Thread × Act κ ν)) :
    w.run (acts ++ more) = (w.run acts).bind fun w' => w'.run more := by
  induction acts generalizing w with
  | nil => rfl
  | cons a rest ih =>
    rw [List.cons_append, run, run, Option.bind_assoc]
    exact Option.bind_congr fun w' _ => ih w'

theorem run_single (w : World κ ν) (me : Thread) (act : Act κ ν) :
    w.run [(me, act)] = w.step me act := Option.bind_fun_some _

/-- What holds of nothing done and is kept by one more step holds of every run. -/
theorem run_snoc_induction {motive : List (Thread × Act κ ν) → World κ ν → Prop}
    (nil : motive [] w)
    (snoc : ∀ acts x y me act, w.run acts = some x → motive acts x → x.step me act = some y →
      motive (acts ++ [(me, act)]) y)
    {acts : List (Thread × Act κ ν)} (h : w.run acts = some w') : motive acts w' := by
  induction acts using List.reverseRecOn generalizing w' with
  | nil =>
    cases h
    exact nil
  | append_singleton acts a ih =>
    rw [run_append, Option.bind_eq_some_iff] at h
    obtain ⟨x, hx, hstep⟩ := h
    rw [run_single] at hstep
    exact snoc acts x w' a.1 a.2 hx (ih hx) hstep

end World

end Stencil
