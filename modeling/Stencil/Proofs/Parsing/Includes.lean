import Stencil.Proofs.Parsing.Plain
import Mathlib.Data.List.Nodup
import Mathlib.Logic.Relation

/-!
# The include graph

**Includes** (`Parser.Includes`). A source includes another if its text, without ditch blocks, has
an include tag whose path leads there.

**Success** (`plainId_ok`). A source parses only if everything it includes parses below it, so
whatever can be reached from it lies neither on the stack nor in a cycle
(`not_mem_of_transGen`).

**Stacks** (`plainId_restack`). Hence a source that parses below one stack parses to the same
below every stack that it cannot reach.

**Ending** (`plainId_ne_endless`). The bound on nested loads only matters if it is hit
(`plainId_mono`). A stack holds no source twice, so it is never hit if no more sources than the
bound can be reached.
-/

namespace Stencil

open Relation

/-! ## Answers that agree unless one fails -/

/-- Two answers are the same, unless the first is an error of a certain kind. -/
def Refines {α : Type} (skip : LoadError → Prop) (r s : Except LoadError α) : Prop :=
  r = s ∨ ∃ e, skip e ∧ r = .error e

namespace Refines

variable {α β : Type} {skip : LoadError → Prop}

theorem refl (r : Except LoadError α) : Refines skip r r := .inl rfl

theorem bind {r s : Except LoadError α} {k l : α → Except LoadError β} (h : Refines skip r s)
    (hk : ∀ a, r = .ok a → Refines skip (k a) (l a)) : Refines skip (r >>= k) (s >>= l) := by
  rcases h with rfl | ⟨e, he, rfl⟩
  · cases r with
    | ok a => exact hk a rfl
    | error e => exact .inl rfl
  · exact .inr ⟨e, he, rfl⟩

theorem eq_of_ok {r s : Except LoadError α} (h : Refines skip r s) {a : α} (hr : r = .ok a) :
    s = .ok a := by
  rcases h with rfl | ⟨e, -, rfl⟩
  · exact hr
  · cases hr

end Refines

variable {d : Draft} {load other : Text → Nat → Except LoadError Template}

/-- Levels agree if their includes do. -/
theorem plainLevel_refines {skip : LoadError → Prop} (names : LevelNames) (pieces : List Piece)
    (h : ∀ path ∈ includePaths pieces, ∀ pos, Refines skip (load path pos) (other path pos)) :
    Refines skip (plainLevel d load names pieces) (plainLevel d other names pieces) := by
  induction names, pieces using level_induction with
  | nil names =>
    rw [plainLevel_nil, plainLevel_nil]
    exact .refl _
  | text names content rest ih =>
    rw [plainLevel_text, plainLevel_text]
    rw [includePaths_text] at h
    exact .bind (ih h) fun _ _ => .refl _
  | fault names t rest f hj =>
    rw [plainLevel_token, plainLevel_token, hj]
    exact .refl _
  | var names t rest kind name hj ih =>
    rw [plainLevel_token, plainLevel_token, hj]
    rw [includePaths_var hj] at h
    exact .bind (ih h) fun _ _ => .refl _
  | opens names t rest name inner c after hj ih₁ ih₂ =>
    rw [plainLevel_token, plainLevel_token, hj]
    rw [includePaths_opens hj] at h
    refine .bind (ih₁ fun path hp => h path (List.mem_append_left _ hp)) fun _ _ => ?_
    exact .bind (ih₂ fun path hp => h path (List.mem_append_right _ hp)) fun _ _ => .refl _
  | includes names t rest name path hj ih =>
    rw [plainLevel_token, plainLevel_token, hj]
    rw [includePaths_includes hj] at h
    refine .bind (h path List.mem_cons_self t.pos) fun _ _ => ?_
    exact .bind (ih fun path hp => h path (List.mem_cons_of_mem _ hp)) fun _ _ => .refl _

theorem plainWith_refines {skip : LoadError → Prop} {p : Parser}
    {load other : Draft → Text → Nat → Except LoadError Template} (id : Option SourceId)
    (source : Text) (h : ∀ d, ∀ path ∈ p.pathsIn source, ∀ pos,
      Refines skip (load d path pos) (other d path pos)) :
    Refines skip (p.plainWith load id source) (p.plainWith other id source) := by
  refine .bind (.refl _) fun d hd => ?_
  rw [Parser.pathsIn_eq hd] at h
  exact .bind (plainLevel_refines _ _ (h d)) fun _ _ => .refl _

/-! ## Includes of a level -/

/-- On a level that parses, every include does. -/
theorem plainLevel_ok (names : LevelNames) (pieces : List Piece) {parts : List Part}
    (h : plainLevel d load names pieces = .ok parts) :
    ∀ path ∈ includePaths pieces, ∃ pos t, load path pos = .ok t := by
  induction names, pieces using level_induction generalizing parts with
  | nil names => exact fun _ hp => absurd hp List.not_mem_nil
  | text names content rest ih =>
    rw [plainLevel_text] at h
    obtain ⟨tail, ht, -⟩ := bind_eq_ok h
    exact ih ht
  | fault names t rest f hj =>
    rw [plainLevel_token, hj] at h
    cases h
  | var names t rest kind name hj ih =>
    rw [plainLevel_token, hj] at h
    obtain ⟨tail, ht, -⟩ := bind_eq_ok h
    rw [includePaths_var hj]
    exact ih ht
  | opens names t rest name inner c after hj ih₁ ih₂ =>
    rw [plainLevel_token, hj] at h
    obtain ⟨body, hb, h⟩ := bind_eq_ok h
    obtain ⟨tail, ht, -⟩ := bind_eq_ok h
    rw [includePaths_opens hj]
    intro path hp
    rcases List.mem_append.1 hp with hp | hp
    · exact ih₁ hb path hp
    · exact ih₂ ht path hp
  | includes names t rest name path hj ih =>
    rw [plainLevel_token, hj] at h
    obtain ⟨template, hl, h⟩ := bind_eq_ok h
    obtain ⟨tail, ht, -⟩ := bind_eq_ok h
    rw [includePaths_includes hj]
    intro path' hp
    rcases List.mem_cons.1 hp with rfl | hp
    · exact ⟨t.pos, template, hl⟩
    · exact ih ht path' hp

/-- A level fails with the fault of one of its tokens, or as one of its includes does. -/
theorem plainLevel_error (names : LevelNames) (pieces : List Piece) {e : LoadError}
    (h : plainLevel d load names pieces = .error e) :
    (∃ (used : LevelNames) (t : Token) (rest : List Piece) (f : Fault),
        used.judge t rest = .fault f ∧ e = d.error f t.pos) ∨
      ∃ path ∈ includePaths pieces, ∃ pos, load path pos = .error e := by
  induction names, pieces using level_induction with
  | nil names =>
    rw [plainLevel_nil] at h
    cases h
  | text names content rest ih =>
    rw [plainLevel_text] at h
    rcases bind_eq_error h with h | ⟨_, _, h⟩
    · exact ih h
    · cases h
  | fault names t rest f hj =>
    rw [plainLevel_token, hj] at h
    cases h
    exact .inl ⟨names, t, rest, f, hj, rfl⟩
  | var names t rest kind name hj ih =>
    rw [plainLevel_token, hj] at h
    rw [includePaths_var hj]
    rcases bind_eq_error h with h | ⟨_, _, h⟩
    · exact ih h
    · cases h
  | opens names t rest name inner c after hj ih₁ ih₂ =>
    rw [plainLevel_token, hj] at h
    rw [includePaths_opens hj]
    rcases bind_eq_error h with h | ⟨_, _, h⟩
    · rcases ih₁ h with hf | ⟨path, hp, hl⟩
      · exact .inl hf
      · exact .inr ⟨path, List.mem_append_left _ hp, hl⟩
    · rcases bind_eq_error h with h | ⟨_, _, h⟩
      · rcases ih₂ h with hf | ⟨path, hp, hl⟩
        · exact .inl hf
        · exact .inr ⟨path, List.mem_append_right _ hp, hl⟩
      · cases h
  | includes names t rest name path hj ih =>
    rw [plainLevel_token, hj] at h
    rw [includePaths_includes hj]
    rcases bind_eq_error h with h | ⟨_, _, h⟩
    · exact .inr ⟨path, List.mem_cons_self, t.pos, h⟩
    · rcases bind_eq_error h with h | ⟨_, _, h⟩
      · rcases ih h with hf | ⟨path', hp, hl⟩
        · exact .inl hf
        · exact .inr ⟨path', List.mem_cons_of_mem _ hp, hl⟩
      · cases h

namespace Parser

variable {p : Parser} {stack stack' : List SourceId} {id : SourceId} {n m : Nat} {t : Template}

/-! ## The graph -/

/-- The text has an include tag that leads to the source. -/
def Mentions (p : Parser) (source : Text) (id : SourceId) : Prop :=
  ∃ path ∈ p.pathsIn source, p.locate path = .ok (some id)

/-- The one source includes the other. -/
def Includes (p : Parser) (a b : SourceId) : Prop :=
  ∃ source, p.readText a = .ok source ∧ p.Mentions source b

theorem plainIncluded_some {load : SourceId → Except LoadError Template} {path : Text}
    (h : p.locate path = .ok (some id)) (d : Draft) (pos : Nat) :
    p.plainIncluded load stack d path pos =
      if id ∈ stack then
        .error (d.error (.includeCycle ((stack ++ [id]).map SourceId.text)) pos)
      else load id := by
  unfold plainIncluded
  rw [h]
  by_cases hs : id ∈ stack
  · simp [bind, Except.bind, hs]
    rfl
  · simp [bind, Except.bind, hs]

/-- An include leads to the same unless its path leads to a source. -/
theorem plainIncluded_refines {skip : LoadError → Prop}
    {load other : SourceId → Except LoadError Template} {d : Draft} {path : Text} {pos : Nat}
    (h : ∀ b, p.locate path = .ok (some b) → Refines skip
      (p.plainIncluded load stack d path pos) (p.plainIncluded other stack' d path pos)) :
    Refines skip (p.plainIncluded load stack d path pos)
      (p.plainIncluded other stack' d path pos) := by
  cases hl : p.locate path with
  | error e =>
    unfold plainIncluded
    rw [hl]
    exact .refl _
  | ok id? =>
    cases id? with
    | some b => exact h b hl
    | none =>
      unfold plainIncluded
      rw [hl]
      exact .refl _

/-- A text that parses mentions only sources that are not on the stack and parse. -/
theorem plainWith_ok {load : SourceId → Except LoadError Template} {of : Option SourceId}
    {source : Text} (h : p.plainWith (p.plainIncluded load stack) of source = .ok t)
    {b : SourceId} (hb : p.Mentions source b) : b ∉ stack ∧ ∃ t', load b = .ok t' := by
  obtain ⟨path, hp, hl⟩ := hb
  obtain ⟨d, hd, h⟩ := bind_eq_ok h
  obtain ⟨parts, hparts, -⟩ := bind_eq_ok h
  rw [pathsIn_eq hd] at hp
  obtain ⟨pos, t', ht⟩ := plainLevel_ok _ _ hparts path hp
  rw [plainIncluded_some hl] at ht
  split at ht
  · cases ht
  · rename_i hs
    exact ⟨hs, t', ht⟩

/-- What a source includes parses below it. -/
theorem plainId_ok (h : p.plainId (n + 1) stack id = .ok t) {b : SourceId}
    (hb : p.Includes id b) : b ∉ stack ++ [id] ∧ ∃ t', p.plainId n (stack ++ [id]) b = .ok t' := by
  obtain ⟨source, hr, hm⟩ := hb
  unfold plainId at h
  rw [hr] at h
  exact plainWith_ok h hm

/-- **Nothing that can be reached from a source that parses is on its stack.** -/
theorem not_mem_of_transGen (h : p.plainId n stack id = .ok t) {b : SourceId}
    (hb : TransGen p.Includes id b) : b ∉ stack ++ [id] := by
  induction n generalizing stack id t with
  | zero => cases h
  | succ n ih =>
    rcases TransGen.head'_iff.1 hb with ⟨c, hc, hcb⟩
    obtain ⟨hcs, t', ht⟩ := plainId_ok h hc
    rcases reflTransGen_iff_eq_or_transGen.1 hcb with rfl | hcb
    · exact hcs
    · exact fun hbs => ih ht hcb (List.mem_append_left _ hbs)

/-- A source that parses is in no cycle of includes. -/
theorem acyclic_of_plainId (h : p.plainId n stack id = .ok t) : ¬ TransGen p.Includes id id :=
  fun hc => not_mem_of_transGen h hc (by simp)

/-! ## Stacks and bounds -/

/-- More nested loads change no answer but that there were too few. -/
theorem plainId_mono (h : n ≤ m) (stack : List SourceId) (id : SourceId) :
    Refines (· = .endless) (p.plainId n stack id) (p.plainId m stack id) := by
  induction n generalizing m stack id with
  | zero => exact .inr ⟨_, rfl, rfl⟩
  | succ n ih =>
    obtain ⟨m, rfl⟩ : ∃ k, m = k + 1 := ⟨m - 1, by omega⟩
    refine .bind (.refl _) fun source _ => plainWith_refines _ _ fun d path _ pos => ?_
    refine plainIncluded_refines fun b hl => ?_
    rw [plainIncluded_some hl, plainIncluded_some hl]
    split
    · exact .refl _
    · exact ih (by omega) _ _

/-- **A source parses to the same below every stack that it cannot reach.** -/
theorem plainId_restack (h : p.plainId n stack id = .ok t) (hnm : n ≤ m)
    (hs : ∀ b, TransGen p.Includes id b → b ∉ stack') : p.plainId m stack' id = .ok t := by
  induction n generalizing m stack stack' id t with
  | zero => cases h
  | succ n ih =>
    obtain ⟨m, rfl⟩ : ∃ k, m = k + 1 := ⟨m - 1, by omega⟩
    suffices hr : Refines (fun _ => True) (p.plainId (n + 1) stack id)
        (p.plainId (m + 1) stack' id) from hr.eq_of_ok h
    refine .bind (.refl _) fun source hr => plainWith_refines _ _ fun d path hp pos => ?_
    refine plainIncluded_refines fun b hl => ?_
    have hb : p.Includes id b := ⟨source, hr, path, hp, hl⟩
    obtain ⟨hbs, t', ht⟩ := plainId_ok h hb
    have hbs' : b ∉ stack' ++ [id] := by
      simp only [List.mem_append, List.mem_singleton, not_or] at hbs ⊢
      exact ⟨hs b (.single hb), hbs.2⟩
    have hsb : ∀ c, TransGen p.Includes b c → c ∉ stack' ++ [id] := by
      intro c hc
      have hid := not_mem_of_transGen h (.head hb hc)
      simp only [List.mem_append, List.mem_singleton, not_or] at hid ⊢
      exact ⟨hs c (.head hb hc), hid.2⟩
    rw [plainIncluded_some hl, plainIncluded_some hl, if_neg hbs, if_neg hbs', ht,
      ih ht (by omega) hsb]
    exact .refl _

/-! ## Ending -/

/-- The sources in a set include only each other, and no more of them are distinct than may
include each other in a chain. -/
structure Bounded (p : Parser) (on : SourceId → Prop) : Prop where
  closed : ∀ a b, on a → p.Includes a b → on b
  few : ∀ ids : List SourceId, ids.Nodup → (∀ id ∈ ids, on id) → ids.length ≤ p.resolver.reach

/-- The stack under a source in the course of loading: distinct sources of a set, each of which
leads to the one on top. -/
structure Trail (p : Parser) (on : SourceId → Prop) (stack : List SourceId) (id : SourceId) :
    Prop where
  nodup : (stack ++ [id]).Nodup
  mem : ∀ x ∈ stack ++ [id], on x
  leads : ∀ x ∈ stack, TransGen p.Includes x id

variable {on : SourceId → Prop} {b : SourceId}

theorem Trail.nil (h : on id) : p.Trail on [] id where
  nodup := List.nodup_singleton id
  mem := fun x hx => by
    rw [List.mem_singleton.1 hx]
    exact h
  leads := fun _ hx => absurd hx List.not_mem_nil

/-- An include that is no cycle goes on a trail. -/
theorem Trail.push (h : p.Trail on stack id) (hp : p.Bounded on) (hb : p.Includes id b)
    (hbs : b ∉ stack ++ [id]) : p.Trail on (stack ++ [id]) b where
  nodup := by
    refine List.nodup_append.2 ⟨h.nodup, List.nodup_singleton b, ?_⟩
    rintro a ha _ hb rfl
    rw [List.mem_singleton.1 hb] at ha
    exact hbs ha
  mem := by
    intro x hx
    rcases List.mem_append.1 hx with hx | hx
    · exact h.mem x hx
    · rw [List.mem_singleton.1 hx]
      exact hp.closed id b (h.mem id (by simp)) hb
  leads := by
    intro x hx
    rcases List.mem_append.1 hx with hx | hx
    · exact .tail (h.leads x hx) hb
    · rw [List.mem_singleton.1 hx]
      exact .single hb

theorem readText_ne_endless : p.readText id ≠ .error .endless := by
  unfold readText
  split
  · exact fun h => nomatch h
  · split <;> exact fun h => nomatch h

theorem locate_ne_endless {path : Text} : p.locate path ≠ .error .endless := by
  unfold locate
  split <;> exact fun h => nomatch h

/-- A text has enough nested loads if the sources it mentions have. -/
theorem plainWith_ne_endless {load : SourceId → Except LoadError Template}
    {of : Option SourceId} {source : Text}
    (h : ∀ b, p.Mentions source b → b ∉ stack → load b ≠ .error .endless) :
    p.plainWith (p.plainIncluded load stack) of source ≠ .error .endless := by
  intro he
  rcases bind_eq_error he with he | ⟨d, hd, he⟩
  · unfold Draft.ofSource at he
    split at he <;> cases he
  rcases bind_eq_error he with he | ⟨_, _, he⟩
  · rcases plainLevel_error _ _ he with ⟨_, _, _, _, _, hf⟩ | ⟨path, hpath, pos, hl⟩
    · cases hf
    rw [← pathsIn_eq hd] at hpath
    cases hloc : p.locate path with
    | error e =>
      unfold plainIncluded at hl
      rw [hloc] at hl
      cases hl
      exact locate_ne_endless hloc
    | ok id? =>
      cases id? with
      | none =>
        unfold plainIncluded at hl
        rw [hloc] at hl
        cases hl
      | some b =>
        rw [plainIncluded_some hloc] at hl
        split at hl
        · cases hl
        · rename_i hbs
          exact h b ⟨path, hpath, hloc⟩ hbs hl
  · cases he

/-- **Loads end.** A trail in a bounded set leaves enough nested loads. -/
theorem plainId_ne_endless (hp : p.Bounded on) (ht : p.Trail on stack id)
    (hn : p.resolver.reach < n + stack.length) : p.plainId n stack id ≠ .error .endless := by
  induction n generalizing stack id with
  | zero =>
    have := hp.few _ ht.nodup ht.mem
    simp only [List.length_append, List.length_singleton] at this
    omega
  | succ n ih =>
    intro h
    rcases bind_eq_error h with h | ⟨source, hr, h⟩
    · exact readText_ne_endless h
    refine plainWith_ne_endless (fun b hb hbs => ?_) h
    refine ih (ht.push hp ⟨source, hr, hb⟩ hbs) ?_
    simp only [List.length_append, List.length_singleton]
    omega

/-- **On a trail a source parses as it does on its own.** -/
theorem Trail.plainId_eq_ok_iff (ht : p.Trail on stack id) (hp : p.Bounded on)
    (hn : p.resolver.reach < n + stack.length) (hd : n ≤ p.depth) :
    p.plainId n stack id = .ok t ↔ p.plainId p.depth [] id = .ok t := by
  constructor
  · intro h
    exact plainId_restack h hd fun _ _ => List.not_mem_nil
  · intro h
    have hs : p.plainId p.depth stack id = .ok t := by
      refine plainId_restack h (Nat.le_refl _) fun b hb hbs => ?_
      exact acyclic_of_plainId h (.trans hb (ht.leads b hbs))
    rcases plainId_mono hd stack id with he | ⟨e, rfl, he⟩
    · rw [he, hs]
    · exact absurd he (plainId_ne_endless hp ht hn)

end Parser

end Stencil
