import Mathlib.Data.List.Infix
import Stencil.Proofs.Markup.Lossless
import Stencil.Proofs.Parsing.Pass

/-!
# Nesting

**Levels** (`checked_of_level`, `fails_of_level`). The pass follows the parser along a level and
into the levels inside it. No piece inside a template ends it or one outside it, so the stack of
the pass is the nesting of levels.

**Agreement** (`level_ok_iff`, `level_error_iff`). A level parses exactly if the pass takes all its
pieces and leaves nothing open, and to the same parts. Otherwise it fails with the first failing
check. One direction goes along the level; the other needs no induction, since a pass has one
outcome.

**Sources** (`parseWith_iff_pass`). The same holds of sources without ditch words.
-/

namespace Stencil

namespace Pass

variable {d : Draft} {load : Text → Nat → Parsing Template} {ps rest : List Piece} {t : Token}
  {names : LevelNames} {stack : List Opened}

/-! ## Levels -/

/-- The pieces behind a level begin with the end of its template, if it has one. -/
def Resumes : List Opened → List Piece → Prop
  | [], rest => rest = []
  | f :: _, rest => ∃ c after, rest = .token c :: after ∧ c.kind = .closes f.name

/-- What is left of a level is the region of its template. -/
theorem region_level (h : Free stack ps) (hr : Resumes stack rest) :
    region stack (ps ++ rest) = ps := by
  rw [region_append h]
  cases stack with
  | nil =>
    rw [show rest = [] from hr]
    exact List.append_nil ps
  | cons f stack =>
    obtain ⟨c, after, rfl, hc⟩ := hr
    simp [region, Piece.ends, hc]

/-- Nothing before the nearest end tag of a name is one. -/
theorem splitEnd_free {name : Text} {inner after : List Piece} {c : Token}
    (h : splitEnd name ps = some (inner, c, after)) : ∀ p ∈ inner, p.ends name = false := by
  have hrest : ∀ {q : Piece} {i : List Piece}, q.ends name = false →
      (∀ p ∈ i, p.ends name = false) → ∀ p ∈ q :: i, p.ends name = false := by
    intro q i hq hi p hp
    rcases List.mem_cons.1 hp with rfl | hp
    · exact hq
    · exact hi p hp
  induction ps generalizing inner with
  | nil => cases h
  | cons p ps ih =>
    cases p with
    | text content =>
      simp only [splitEnd, Option.map_eq_some_iff, Prod.mk.injEq] at h
      obtain ⟨⟨i, d, a⟩, hs, rfl, rfl, rfl⟩ := h
      exact hrest rfl (ih hs)
    | token t =>
      by_cases ht : t.kind = .closes name
      · simp only [splitEnd, ht, if_true, Option.some.injEq, Prod.mk.injEq] at h
        obtain ⟨rfl, -, -⟩ := h
        intro p hp
        cases hp
      · simp only [splitEnd, ht, if_false, Option.map_eq_some_iff, Prod.mk.injEq] at h
        obtain ⟨⟨i, d, a⟩, hs, rfl, rfl, rfl⟩ := h
        exact hrest (decide_eq_false ht) (ih hs)

theorem splitEnd_eq_none {name : Text} (h : splitEnd name ps = none) :
    ∀ p ∈ ps, p.ends name = false := by
  induction ps with
  | nil =>
    intro p hp
    cases hp
  | cons p ps ih =>
    intro q hq
    cases p with
    | text content =>
      simp only [splitEnd, Option.map_eq_none_iff] at h
      rcases List.mem_cons.1 hq with rfl | hq
      · rfl
      · exact ih h q hq
    | token t =>
      by_cases ht : t.kind = .closes name
      · simp [splitEnd, ht] at h
      · simp only [splitEnd, ht, if_false, Option.map_eq_none_iff] at h
        rcases List.mem_cons.1 hq with rfl | hq
        · exact decide_eq_false ht
        · exact ih h q hq

theorem refused_of_var {body : Text} {f : Fault} {s : Pass} (hk : t.kind = .var body)
    (h : s.names.judge t ps = .fault f) : s.Refused t (ps ++ rest) f := by
  unfold LevelNames.judge at h
  rw [hk] at h
  cases hv : readVariable body with
  | error g =>
    simp only [hv, Verdict.fault.injEq] at h
    subst h
    exact .escape hk hv
  | ok r =>
    obtain ⟨kind, name⟩ := r
    simp only [hv] at h
    split at h
    · rename_i hn
      cases h
      rw [hn] at hv
      exact .varEmpty hk hv
    · rename_i hn
      split at h
      · rename_i hu
        cases h
        exact .varUsed hk hv hn hu
      · cases h

theorem refused_of_opens {name : Text} {f : Fault} {s : Pass} (hk : t.kind = .opens name)
    (h : s.names.judge t ps = .fault f) (hregion : region s.stack (ps ++ rest) = ps) :
    s.Refused t (ps ++ rest) f := by
  unfold LevelNames.judge at h
  rw [hk] at h
  dsimp only at h
  split at h
  · rename_i hn
    cases h
    rw [hn] at hk
    exact .beginEmpty hk
  · rename_i hn
    split at h
    · rename_i hs
      cases h
      refine .unterminated hk hn ?_
      rintro ⟨p, hp, hends⟩
      rw [hregion] at hp
      rw [splitEnd_eq_none hs p hp] at hends
      cases hends
    · rename_i inner c after hs
      split at h
      · rename_i hu
        cases h
        obtain ⟨rfl, hc⟩ := splitEnd_eq_some hs
        refine .beginUsed hk hn ⟨.token c, ?_, decide_eq_true hc⟩ hu
        rw [hregion]
        exact List.mem_append_right _ List.mem_cons_self
      · cases h

theorem refused_of_includes {arg : Text} {f : Fault} {s : Pass} (hk : t.kind = .includes arg)
    (h : s.names.judge t ps = .fault f) : s.Refused t (ps ++ rest) f := by
  unfold LevelNames.judge at h
  rw [hk] at h
  cases hs : splitInclude arg with
  | mk name path =>
    simp only [hs] at h
    split at h
    · rename_i hp
      cases h
      rw [hp] at hs
      exact .pathEmpty hk hs
    · rename_i hp
      split at h
      · rename_i hn
        cases h
        rw [hn] at hs
        exact .includeEmpty hk hs hp
      · rename_i hn
        split at h
        · rename_i hu
          cases h
          exact .includeUsed hk hs hp hn hu
        · cases h

/-- **A token with a fault is refused by the pass.** -/
theorem refused_of_judge {f : Fault} {parts : List Part} {b : Bench}
    (h : names.judge t ps = .fault f) (hfree : Free stack (.token t :: ps))
    (hr : Resumes stack rest) :
    Refused ⟨stack, names, parts, b⟩ t (ps ++ rest) f := by
  cases hk : t.kind with
  | var body => exact refused_of_var hk h
  | opens name => exact refused_of_opens hk h (region_level hfree.tail hr)
  | includes arg => exact refused_of_includes hk h
  | closes name =>
    unfold LevelNames.judge at h
    rw [hk] at h
    cases h
    refine .dangling hk fun f hf he => ?_
    have hends := hfree f (List.mem_of_head? hf) (.token t) List.mem_cons_self
    rw [he] at hends
    exact absurd hk (of_decide_eq_false hends)
  | unknown keyword =>
    unfold LevelNames.judge at h
    rw [hk] at h
    cases h
    exact .unknown hk
  | stray =>
    unfold LevelNames.judge at h
    rw [hk] at h
    cases h
    exact .stray hk

/-- The begin tag of an inline template is taken and checked. -/
theorem step_of_opens {name : Text} {inner after : List Piece} {c : Token} {parts : List Part}
    {b : Bench} (h : names.judge t ps = .opens name inner c after)
    (hfree : Free stack (.token t :: ps)) (hr : Resumes stack rest) :
    Step load ⟨stack, names, parts, b⟩ (.token t)
        ⟨⟨name, t.raw, names, parts⟩ :: stack, .empty, [], b⟩ ∧
      Terminates ⟨stack, names, parts, b⟩ name (ps ++ rest) := by
  obtain ⟨hk, hn, hs, hu⟩ := LevelNames.judge_opens h
  have hregion := region_level hfree.tail hr
  obtain ⟨rfl, hc⟩ := splitEnd_eq_some hs
  have hmem : Piece.token c ∈ inner ++ .token c :: after :=
    List.mem_append_right _ List.mem_cons_self
  constructor
  · refine .opens hk hn (fun f hf he => ?_) hu
    -- The end tag of an open template would be behind the begin tag.
    have hends := hfree.tail f hf (.token c) hmem
    rw [he] at hends
    exact absurd hc (of_decide_eq_false hends)
  · refine ⟨.token c, ?_, decide_eq_true hc⟩
    show Piece.token c ∈ region stack (inner ++ .token c :: after ++ rest)
    rw [hregion]
    exact hmem

/-- What is inside an inline template ends neither it nor a template around it. -/
theorem free_inner {f : Opened} {inner after : List Piece} {c : Token}
    (hs : splitEnd f.name ps = some (inner, c, after)) (hfree : Free stack ps) :
    Free (f :: stack) inner := by
  intro g hg q hq
  rcases List.mem_cons.1 hg with rfl | hg
  · exact splitEnd_free hs q hq
  · refine hfree g hg q ?_
    rw [(splitEnd_eq_some hs).1]
    exact List.mem_append_left _ hq

/-- **The pass takes the pieces of a level that parses, to the same parts.** -/
theorem checked_of_level (names : LevelNames) (pieces : List Piece) (before : List Part)
    {parts : List Part} {b b' : Bench} (h : (level d load names pieces).on b = (.ok parts, b'))
    (hfree : Free stack pieces) (hr : Resumes stack rest) :
    ∃ names', Checked load ⟨stack, names, before, b⟩ pieces rest
      ⟨stack, names', before ++ parts, b'⟩ := by
  -- The parts before a piece are in the state of the pass, so they differ along the level.
  induction names, pieces using level_induction
    generalizing stack rest before parts b b' with
  | nil names =>
    rw [level_nil] at h
    cases h
    rw [List.append_nil]
    exact ⟨names, .nil⟩
  | text names content ps ih =>
    rw [level_text] at h
    obtain ⟨tail, b₁, htail, h⟩ := Parsing.of_on_bind_ok h
    cases h
    obtain ⟨names', hrun⟩ := ih (before ++ [.text content]) htail hfree.tail hr
    rw [List.append_assoc] at hrun
    exact ⟨names', hrun.text⟩
  | fault names t ps f hj =>
    rw [level_token, hj] at h
    cases h
  | var names t ps kind name hj ih =>
    rw [level_token, hj] at h
    obtain ⟨tail, b₁, htail, h⟩ := Parsing.of_on_bind_ok h
    cases h
    obtain ⟨body, hk, hv, hn, hu⟩ := LevelNames.judge_var hj
    obtain ⟨names', hrun⟩ := ih (before ++ [.var name kind t.raw]) htail hfree.tail hr
    rw [List.append_assoc] at hrun
    exact ⟨names', hrun.var hk hv hn hu⟩
  | opens names t ps name inner c after hj ih₁ ih₂ =>
    rw [level_token, hj] at h
    obtain ⟨body, b₁, hbody, h⟩ := Parsing.of_on_bind_ok h
    obtain ⟨stamp, b₂, hstamp, h⟩ := Parsing.of_on_bind_ok h
    obtain ⟨tail, b₃, htail, h⟩ := Parsing.of_on_bind_ok h
    cases h
    cases hstamp
    obtain ⟨hstep, hterm⟩ := step_of_opens hj hfree hr
    obtain ⟨hk, -, hs, -⟩ := LevelNames.judge_opens hj
    have hinner := free_inner (f := ⟨name, t.raw, names, before⟩) hs hfree.tail
    obtain ⟨rfl, hc⟩ := splitEnd_eq_some hs
    have hafter : Free stack after := (Free.append_iff.1 hfree.tail).2.tail
    obtain ⟨names₁, hrun₁⟩ := ih₁ [] hbody hinner ⟨c, after ++ rest, rfl, hc⟩
    obtain ⟨names₂, hrun₂⟩ := ih₂
      (before ++ [.nested name (.inline t.raw c.raw) ⟨b₁.2, none⟩ body]) htail hafter hr
    rw [List.append_assoc] at hrun₂
    exact ⟨names₂, .inline hk hc hstep hterm hrun₁ hrun₂⟩
  | includes names t ps name path hj ih =>
    rw [level_token, hj] at h
    obtain ⟨template, b₁, hload, h⟩ := Parsing.of_on_bind_ok h
    obtain ⟨tail, b₂, htail, h⟩ := Parsing.of_on_bind_ok h
    cases h
    obtain ⟨arg, hk, hs, hp, hn, hu⟩ := LevelNames.judge_includes hj
    obtain ⟨names', hrun⟩ := ih
      (before ++ [.nested name (.included path t.raw) template.stamp template.parts]) htail
      hfree.tail hr
    rw [List.append_assoc] at hrun
    exact ⟨names', hrun.includes hk hs hp hn hu hload⟩

/-- **The pass comes to a failing check on a level that does not parse**, with the same error. -/
theorem fails_of_level (names : LevelNames) (pieces : List Piece) (before : List Part)
    {e : LoadError} {b b' : Bench} (h : (level d load names pieces).on b = (.error e, b'))
    (hfree : Free stack pieces) (hr : Resumes stack rest) :
    ∃ taken t left s, pieces = taken ++ .token t :: left ∧
      Checked load ⟨stack, names, before, b⟩ taken (.token t :: (left ++ rest)) s ∧
      Fails d load s t (left ++ rest) e b' := by
  induction names, pieces using level_induction
    generalizing stack rest before b with
  | nil names =>
    rw [level_nil] at h
    cases h
  | text names content ps ih =>
    rw [level_text] at h
    rcases Parsing.of_on_bind_error h with h | ⟨tail, b₁, -, h⟩
    · obtain ⟨taken, t, left, s, rfl, hrun, hfail⟩ :=
        ih (before ++ [.text content]) h hfree.tail hr
      exact ⟨_ :: taken, t, left, s, rfl, hrun.text, hfail⟩
    · cases h
  | fault names t ps f hj =>
    rw [level_token, hj] at h
    cases h
    exact ⟨[], t, ps, _, rfl, .nil, .refused (refused_of_judge hj hfree hr)⟩
  | var names t ps kind name hj ih =>
    rw [level_token, hj] at h
    obtain ⟨body, hk, hv, hn, hu⟩ := LevelNames.judge_var hj
    rcases Parsing.of_on_bind_error h with h | ⟨tail, b₁, -, h⟩
    · obtain ⟨taken, t', left, s, rfl, hrun, hfail⟩ :=
        ih (before ++ [.var name kind t.raw]) h hfree.tail hr
      exact ⟨_ :: taken, t', left, s, rfl, hrun.var hk hv hn hu, hfail⟩
    · cases h
  | opens names t ps name inner c after hj ih₁ ih₂ =>
    rw [level_token, hj] at h
    dsimp only at h
    obtain ⟨hstep, hterm⟩ := step_of_opens hj hfree hr
    obtain ⟨hk, -, hs, -⟩ := LevelNames.judge_opens hj
    have hinner := free_inner (f := ⟨name, t.raw, names, before⟩) hs hfree.tail
    obtain ⟨rfl, hc⟩ := splitEnd_eq_some hs
    have hafter : Free stack after := (Free.append_iff.1 hfree.tail).2.tail
    rcases Parsing.of_on_bind_error h with h | ⟨body, b₁, hbody, h⟩
    -- The failing token is inside the template.
    · obtain ⟨taken, t', left, s, rfl, hrun, hfail⟩ := ih₁ [] h hinner ⟨c, after ++ rest, rfl, hc⟩
      refine ⟨.token t :: taken, t', left ++ .token c :: after, s, by simp, ?_, ?_⟩
      · refine .opens hk hstep ?_ ?_
        · simpa using hterm
        · simpa using hrun
      · simpa using hfail
    -- It is behind the template.
    · obtain ⟨names₁, hrun₁⟩ := checked_of_level _ _ [] hbody hinner ⟨c, after ++ rest, rfl, hc⟩
      rcases Parsing.of_on_bind_error h with h | ⟨stamp, b₂, hstamp, h⟩
      · cases h
      cases hstamp
      rcases Parsing.of_on_bind_error h with h | ⟨tail, b₃, -, h⟩
      · obtain ⟨taken, t', left, s, rfl, hrun₂, hfail⟩ := ih₂
          (before ++ [.nested name (.inline t.raw c.raw) ⟨b₁.2, none⟩ body]) h hafter hr
        rw [List.append_assoc, List.cons_append] at hrun₁
        refine ⟨.token t :: (inner ++ .token c :: taken), t', left, s, by simp, ?_, hfail⟩
        refine .inline hk hc hstep ?_ hrun₁ hrun₂
        simpa using hterm
      · cases h
  | includes names t ps name path hj ih =>
    rw [level_token, hj] at h
    obtain ⟨arg, hk, hs, hp, hn, hu⟩ := LevelNames.judge_includes hj
    rcases Parsing.of_on_bind_error h with h | ⟨template, b₁, hload, h⟩
    · exact ⟨[], t, ps, _, rfl, .nil, .includes hk hs hp hn hu h⟩
    rcases Parsing.of_on_bind_error h with h | ⟨tail, b₂, -, h⟩
    · obtain ⟨taken, t', left, s, rfl, hrun, hfail⟩ := ih
        (before ++ [.nested name (.included path t.raw) template.stamp template.parts]) h
        hfree.tail hr
      exact ⟨_ :: taken, t', left, s, rfl, hrun.includes hk hs hp hn hu hload, hfail⟩
    · cases h

/-! ## Agreement -/

variable {pieces : List Piece} {parts : List Part} {b b' : Bench}

theorem checked_of_level_ok (h : (level d load .empty pieces).on b = (.ok parts, b')) :
    ∃ names, Checked load (start b) pieces [] ⟨[], names, parts, b'⟩ :=
  checked_of_level .empty pieces [] h free_nil rfl

theorem firstFailure_of_level_error {e : LoadError}
    (h : (level d load .empty pieces).on b = (.error e, b')) :
    FirstFailure d load (start b) pieces e b' := by
  obtain ⟨taken, t, left, s, hpieces, hrun, hfail⟩ :=
    fails_of_level .empty pieces [] h free_nil rfl
  rw [List.append_nil] at hrun hfail
  exact ⟨taken, t, left, s, hpieces, hrun, hfail⟩

/-- **A level parses exactly if the pass takes it all and leaves nothing open.** -/
theorem level_ok_iff : (level d load .empty pieces).on b = (.ok parts, b') ↔
    ∃ s, Steps load (start b) pieces s ∧ s.stack = [] ∧ s.parts = parts ∧ s.bench = b' := by
  constructor
  · intro h
    obtain ⟨names, hrun⟩ := checked_of_level_ok h
    exact ⟨_, hrun.steps, rfl, rfl, rfl⟩
  · rintro ⟨s, hsteps, hend, rfl, rfl⟩
    have hrun := hsteps.checked (apart_start b) hend
    cases hl : (level d load .empty pieces).on b with
    | mk r b₁ =>
      cases r with
      | ok parts =>
        obtain ⟨names, hrun'⟩ := checked_of_level_ok hl
        rw [hrun.unique hrun']
      | error e => exact ((firstFailure_of_level_error hl).not_checked hrun).elim

end Pass

/-! ## Sources -/

/-- The draft of a source that has no ditch word. -/
def Draft.whole (id : Option SourceId) (source : Text) : Draft :=
  ⟨(Stamp.mk 0 id).origin, source, source, []⟩

theorem Draft.ofSource_whole {ditch source : Text} (h : ¬ ditch <:+: source)
    (id : Option SourceId) (serial : Nat) :
    ofSource ditch (Stamp.mk serial id).origin source = .ok (whole id source) := by
  have hne : ditch ≠ [] := by
    rintro rfl
    exact h List.nil_infix
  have hcut : CutAt ditch source [source] := .last fun a b he => h ⟨a, b, he.symm⟩
  have hstrip : Ditch.strip ditch source = .ok (source, []) := by
    simp [Ditch.strip, ← (CutAt.iff_eq_splitOn hne).1 hcut, Ditch.kept, Ditch.cuts]
  simp only [ofSource, hstrip]
  rfl

namespace Parser

variable {p : Parser} {source : Text}

theorem parseWith_whole (h : ¬ p.markers.ditch <:+: source)
    (load : Draft → Text → Nat → Parsing Template) (id : Option SourceId) (b : Bench) :
    (p.parseWith load id source).on b =
      (level (.whole id source) (load (.whole id source)) .empty
        (tokenize p.markers source).pieces >>= fun parts =>
          pure (⟨⟨b.2, id⟩, parts⟩ : Template)).on (b.1, b.2 + 1) :=
  on_parseWith_ok load (Draft.ofSource_whole h id b.2)

end Parser

end Stencil
