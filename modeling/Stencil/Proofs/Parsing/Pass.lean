import Stencil.Proofs.Parsing.Run

/-!
# A pass over the pieces

The parser takes the nearest end tag of a template, whatever stands in between, and reads what is
inside as a level of its own. Here is another way to read the same pieces.

**The pass** (`Pass.Step`). One pass from left to right with a stack of open templates. A begin tag
opens a template; an end tag closes the innermost one, which must have its name, and makes it one
part of the level outside.

**Checks** (`Pass.Fails`). What can be wrong with a token at its place in the pass. The one check
that looks ahead is that of a begin tag: an end tag of its name must follow before the innermost
open template ends.

**Outcomes** (`Pass.FirstFailure.unique`). A pass takes all pieces or comes to one first failure,
not both.

**Open templates end** (`Pass.Steps.exists_end`). A pass that leaves nothing open has closed each
template before those outside it, so the check of a begin tag need not be made in it.
-/

namespace Stencil

/-! ## The pass -/

/-- A template that is open: its begin tag, and the names and parts before it on its level. -/
structure Opened where
  name : Text
  opener : Text
  names : LevelNames
  parts : List Part

/-- The state of a pass: the open templates from the innermost on, the names and parts of the
current level so far, and the bench. -/
structure Pass where
  stack : List Opened
  names : LevelNames
  parts : List Part
  bench : Bench

/-- The piece is an end tag of that name. -/
def Piece.ends (name : Text) : Piece → Bool
  | .token t => t.kind = .closes name
  | .text _ => false

namespace Pass

/-- The pass before the first piece. -/
def start (b : Bench) : Pass := ⟨[], .empty, [], b⟩

/-- The pass takes a piece. -/
inductive Step (load : Text → Nat → Parsing Template) : Pass → Piece → Pass → Prop
  | text {s : Pass} (content : Text) :
      Step load s (.text content) { s with parts := s.parts ++ [.text content] }
  | var {s : Pass} {t : Token} {body name : Text} {kind : EscapeKind} (hk : t.kind = .var body)
      (hr : readVariable body = .ok (kind, name)) (hn : name ≠ []) (hu : name ∉ s.names.nested) :
      Step load s (.token t)
        { s with names := s.names.addVariable name, parts := s.parts ++ [.var name kind t.raw] }
  | opens {s : Pass} {t : Token} {name : Text} (hk : t.kind = .opens name) (hn : name ≠ [])
      (ho : ∀ f ∈ s.stack, f.name ≠ name) (hu : s.names.uses name = false) :
      Step load s (.token t) ⟨⟨name, t.raw, s.names, s.parts⟩ :: s.stack, .empty, [], s.bench⟩
  | closes {t : Token} {f : Opened} {stack : List Opened} {names : LevelNames} {parts : List Part}
      {b : Bench} (hk : t.kind = .closes f.name) :
      Step load ⟨f :: stack, names, parts, b⟩ (.token t)
        ⟨stack, f.names.addNested f.name,
          f.parts ++ [.nested f.name (.inline f.opener t.raw) ⟨b.2, none⟩ parts], (b.1, b.2 + 1)⟩
  | includes {s : Pass} {t : Token} {arg name path : Text} {template : Template} {b : Bench}
      (hk : t.kind = .includes arg) (hs : splitInclude arg = (name, path)) (hp : path ≠ [])
      (hn : name ≠ []) (hu : s.names.uses name = false)
      (hl : (load path t.pos).on s.bench = (.ok template, b)) :
      Step load s (.token t)
        { s with
          names := s.names.addNested name
          parts := s.parts ++ [.nested name (.included path t.raw) template.stamp template.parts]
          bench := b }

/-- The pass takes pieces one after another. -/
inductive Steps (load : Text → Nat → Parsing Template) : Pass → List Piece → Pass → Prop
  | nil {s : Pass} : Steps load s [] s
  | cons {s s' s'' : Pass} {p : Piece} {ps : List Piece} (h : Step load s p s')
      (hps : Steps load s' ps s'') : Steps load s (p :: ps) s''

/-! ## Checks -/

/-- The pieces before the innermost open template ends. -/
def region : List Opened → List Piece → List Piece
  | [], rest => rest
  | f :: _, rest => rest.takeWhile fun p => !p.ends f.name

/-- An end tag of the name follows in the region of the innermost open template. -/
def Terminates (s : Pass) (name : Text) (rest : List Piece) : Prop :=
  ∃ p ∈ region s.stack rest, p.ends name = true

/-- What is wrong with a token by itself, before what follows it. -/
inductive Refused (s : Pass) (t : Token) (rest : List Piece) : Fault → Prop
  | stray (hk : t.kind = .stray) : Refused s t rest .malformedTag
  | unknown {keyword : Text} (hk : t.kind = .unknown keyword) :
      Refused s t rest (.unknownTag keyword)
  | escape {body : Text} {f : Fault} (hk : t.kind = .var body)
      (hr : readVariable body = .error f) : Refused s t rest f
  | varEmpty {body : Text} {kind : EscapeKind} (hk : t.kind = .var body)
      (hr : readVariable body = .ok (kind, [])) : Refused s t rest .emptyVariableName
  | varUsed {body name : Text} {kind : EscapeKind} (hk : t.kind = .var body)
      (hr : readVariable body = .ok (kind, name)) (hn : name ≠ []) (hu : name ∈ s.names.nested) :
      Refused s t rest (.duplicateName name)
  | beginEmpty (hk : t.kind = .opens []) : Refused s t rest .emptyTemplateName
  | unterminated {name : Text} (hk : t.kind = .opens name) (hn : name ≠ [])
      (ht : ¬ s.Terminates name rest) : Refused s t rest (.templateNotTerminated name)
  | beginUsed {name : Text} (hk : t.kind = .opens name) (hn : name ≠ [])
      (ht : s.Terminates name rest) (hu : s.names.uses name = true) :
      Refused s t rest (.duplicateName name)
  | dangling {name : Text} (hk : t.kind = .closes name)
      (hf : ∀ f, s.stack.head? = some f → f.name ≠ name) : Refused s t rest (.danglingEnd name)
  | pathEmpty {arg name : Text} (hk : t.kind = .includes arg)
      (hs : splitInclude arg = (name, [])) : Refused s t rest .emptyIncludePath
  | includeEmpty {arg path : Text} (hk : t.kind = .includes arg)
      (hs : splitInclude arg = ([], path)) (hp : path ≠ []) : Refused s t rest .emptyTemplateName
  | includeUsed {arg name path : Text} (hk : t.kind = .includes arg)
      (hs : splitInclude arg = (name, path)) (hp : path ≠ []) (hn : name ≠ [])
      (hu : s.names.uses name = true) : Refused s t rest (.duplicateName name)

/-- The check of a token fails: it is refused at its position, or its include is not loaded. -/
inductive Fails (d : Draft) (load : Text → Nat → Parsing Template) (s : Pass) (t : Token)
    (rest : List Piece) : LoadError → Bench → Prop
  | refused {f : Fault} (h : s.Refused t rest f) : Fails d load s t rest (d.error f t.pos) s.bench
  | includes {arg name path : Text} {e : LoadError} {b : Bench} (hk : t.kind = .includes arg)
      (hs : splitInclude arg = (name, path)) (hp : path ≠ []) (hn : name ≠ [])
      (hu : s.names.uses name = false) (hl : (load path t.pos).on s.bench = (.error e, b)) :
      Fails d load s t rest e b

/-- The pass takes pieces one after another, with `rest` behind them, and each begin tag passes
its check too. -/
inductive Checked (load : Text → Nat → Parsing Template) :
    Pass → List Piece → List Piece → Pass → Prop
  | nil {s : Pass} {rest : List Piece} : Checked load s [] rest s
  | cons {s s' s'' : Pass} {p : Piece} {ps rest : List Piece} (h : Step load s p s')
      (ht : ∀ t name, p = .token t → t.kind = .opens name → s.Terminates name (ps ++ rest))
      (hps : Checked load s' ps rest s'') : Checked load s (p :: ps) rest s''

/-- The first token whose check fails, all pieces before it being taken and checked. -/
def FirstFailure (d : Draft) (load : Text → Nat → Parsing Template) (start : Pass)
    (pieces : List Piece) (e : LoadError) (b : Bench) : Prop :=
  ∃ before t rest s, pieces = before ++ .token t :: rest ∧
    Checked load start before (.token t :: rest) s ∧ Fails d load s t rest e b

variable {d : Draft} {load : Text → Nat → Parsing Template} {s s' s'' : Pass} {p : Piece}
  {ps qs rest : List Piece} {t : Token}

/-! ## A pass has one outcome -/

theorem Step.unique (h : Step load s p s') (h' : Step load s p s'') : s' = s'' := by
  cases h <;> cases h' <;> grind

theorem Refused.unique {f g : Fault} (h : s.Refused t rest f) (h' : s.Refused t rest g) :
    f = g := by
  cases h <;> cases h' <;> grind

theorem Refused.not_includes {f : Fault} {arg name path : Text} (h : s.Refused t rest f)
    (hk : t.kind = .includes arg) (hs : splitInclude arg = (name, path)) (hp : path ≠ [])
    (hn : name ≠ []) (hu : s.names.uses name = false) : False := by
  cases h <;> grind

theorem Fails.unique {e e' : LoadError} {b b' : Bench} (h : Fails d load s t rest e b)
    (h' : Fails d load s t rest e' b') : e = e' ∧ b = b' := by
  cases h with
  | refused h =>
    cases h' with
    | refused h' => exact ⟨by rw [h.unique h'], rfl⟩
    | includes hk hs hp hn hu hl => exact (h.not_includes hk hs hp hn hu).elim
  | includes hk hs hp hn hu hl =>
    cases h' with
    | refused h' => exact (h'.not_includes hk hs hp hn hu).elim
    | includes hk' hs' _ _ _ hl' =>
      rw [hk] at hk'
      cases hk'
      rw [hs] at hs'
      cases hs'
      rw [hl] at hl'
      cases hl'
      exact ⟨rfl, rfl⟩

/-- A token that is taken and checked does not fail. -/
theorem Fails.not_step {e : LoadError} {b : Bench} (h : Fails d load s t rest e b)
    (hstep : Step load s (.token t) s')
    (ht : ∀ name, t.kind = .opens name → s.Terminates name rest) : False := by
  cases h with
  | refused h => cases h <;> cases hstep <;> grind
  | includes hk hs hp hn hu hl => cases hstep <;> grind

/-! ## Runs of a pass -/

theorem Checked.steps (h : Checked load s ps rest s') : Steps load s ps s' := by
  induction h with
  | nil => exact .nil
  | cons h _ _ ih => exact .cons h ih

theorem Checked.text {content : Text}
    (h : Checked load { s with parts := s.parts ++ [.text content] } ps rest s') :
    Checked load s (.text content :: ps) rest s' :=
  .cons (.text content) (fun _ _ hp => nomatch hp) h

/-- Only begin tags have a check beyond their step. -/
theorem Checked.token (hk : ∀ name, t.kind ≠ .opens name) (h : Step load s (.token t) s')
    (hps : Checked load s' ps rest s'') : Checked load s (.token t :: ps) rest s'' := by
  refine .cons h (fun t' name hp hk' => ?_) hps
  cases hp
  exact absurd hk' (hk name)

theorem Checked.opens {name : Text} (hk : t.kind = .opens name) (h : Step load s (.token t) s')
    (ht : s.Terminates name (ps ++ rest)) (hps : Checked load s' ps rest s'') :
    Checked load s (.token t :: ps) rest s'' := by
  refine .cons h (fun t' name' hp hk' => ?_) hps
  cases hp
  rw [hk, TokenKind.opens.injEq] at hk'
  rw [← hk']
  exact ht

theorem Checked.var {body name : Text} {kind : EscapeKind} (hk : t.kind = .var body)
    (hr : readVariable body = .ok (kind, name)) (hn : name ≠ []) (hu : name ∉ s.names.nested)
    (hps : Checked load { s with
      names := s.names.addVariable name, parts := s.parts ++ [.var name kind t.raw] } ps rest s') :
    Checked load s (.token t :: ps) rest s' :=
  .token (fun _ => by rw [hk]; exact nofun) (.var hk hr hn hu) hps

theorem Checked.includes {arg name path : Text} {template : Template} {b : Bench}
    (hk : t.kind = .includes arg) (hs : splitInclude arg = (name, path)) (hp : path ≠ [])
    (hn : name ≠ []) (hu : s.names.uses name = false)
    (hl : (load path t.pos).on s.bench = (.ok template, b))
    (hps : Checked load { s with
      names := s.names.addNested name
      parts := s.parts ++ [.nested name (.included path t.raw) template.stamp template.parts]
      bench := b } ps rest s') :
    Checked load s (.token t :: ps) rest s' :=
  .token (fun _ => by rw [hk]; exact nofun) (.includes hk hs hp hn hu hl) hps

theorem Checked.append (h : Checked load s ps (qs ++ rest) s') (h' : Checked load s' qs rest s'') :
    Checked load s (ps ++ qs) rest s'' := by
  generalize hr : qs ++ rest = r at h
  induction h with
  | nil => exact h'
  | cons h ht _ ih =>
    subst hr
    refine .cons h (fun t name hp hk => ?_) (ih h' rfl)
    have hterm := ht t name hp hk
    rw [← List.append_assoc] at hterm
    exact hterm

/-- An inline template is taken as one part once what is inside it is. -/
theorem Checked.inline {name : Text} {names names' : LevelNames} {before body : List Part}
    {b b' : Bench} {stack : List Opened} {inner after : List Piece} {c : Token}
    (hk : t.kind = .opens name) (hc : c.kind = .closes name)
    (hstep : Step load ⟨stack, names, before, b⟩ (.token t)
      ⟨⟨name, t.raw, names, before⟩ :: stack, .empty, [], b⟩)
    (ht : Terminates ⟨stack, names, before, b⟩ name (inner ++ .token c :: after ++ rest))
    (hinner : Checked load ⟨⟨name, t.raw, names, before⟩ :: stack, .empty, [], b⟩ inner
      (.token c :: (after ++ rest)) ⟨⟨name, t.raw, names, before⟩ :: stack, names', body, b'⟩)
    (hafter : Checked load ⟨stack, names.addNested name,
      before ++ [.nested name (.inline t.raw c.raw) ⟨b'.2, none⟩ body], (b'.1, b'.2 + 1)⟩
      after rest s') :
    Checked load ⟨stack, names, before, b⟩ (.token t :: (inner ++ .token c :: after)) rest s' := by
  have hclose : Checked load ⟨⟨name, t.raw, names, before⟩ :: stack, names', body, b'⟩
      (.token c :: after) rest s' :=
    .token (fun _ => by rw [hc]; exact nofun) (.closes hc) hafter
  exact .opens hk hstep ht (hinner.append hclose)

/-- A run is a run over its first pieces and one over the others. -/
theorem Checked.split (h : Checked load s (ps ++ qs) rest s'') :
    ∃ s', Checked load s ps (qs ++ rest) s' ∧ Checked load s' qs rest s'' := by
  induction ps generalizing s with
  | nil => exact ⟨s, .nil, h⟩
  | cons p ps ih =>
    cases h with
    | cons h ht hps =>
      obtain ⟨s', h₁, h₂⟩ := ih hps
      refine ⟨s', .cons h ?_ h₁, h₂⟩
      rw [← List.append_assoc]
      exact ht

theorem Checked.unique {rest' : List Piece} (h : Checked load s ps rest s')
    (h' : Checked load s ps rest' s'') : s' = s'' := by
  induction h with
  | nil =>
    cases h'
    rfl
  | cons h _ _ ih =>
    cases h' with
    | cons h' _ hps' =>
      rw [← h.unique h'] at hps'
      exact ih hps'

/-- A run does not go on over a token that fails. -/
theorem Fails.not_checked {e : LoadError} {b : Bench}
    (h : Fails d load s t (qs ++ rest) e b) (h' : Checked load s (.token t :: qs) rest s') :
    False := by
  cases h' with
  | cons hstep ht _ => exact h.not_step hstep fun name hk => ht t name rfl hk

/-- There is one first failure. -/
theorem FirstFailure.unique {pieces : List Piece} {e e' : LoadError} {b b' : Bench}
    (h : FirstFailure d load s pieces e b) (h' : FirstFailure d load s pieces e' b') :
    e = e' ∧ b = b' := by
  obtain ⟨before, t, rest, x, hpieces, hx, hfail⟩ := h
  obtain ⟨before', t', rest', x', hpieces', hx', hfail'⟩ := h'
  rw [hpieces] at hpieces'
  -- If one of the tokens comes later, the run up to it goes over the other.
  rcases List.append_eq_append_iff.1 hpieces' with ⟨mid, rfl, hmid⟩ | ⟨mid, rfl, hmid⟩
  · cases mid with
    | nil =>
      rw [List.nil_append] at hmid
      obtain ⟨ht, rfl⟩ := List.cons.inj hmid
      cases ht
      rw [List.append_nil] at hx'
      rw [hx.unique hx'] at hfail
      exact hfail.unique hfail'
    | cons p mid =>
      obtain ⟨rfl, rfl⟩ := List.cons.inj hmid
      obtain ⟨y, hy, hrun⟩ := hx'.split
      rw [hx.unique hy] at hfail
      exact (hfail.not_checked hrun).elim
  · cases mid with
    | nil =>
      rw [List.nil_append] at hmid
      obtain ⟨ht, rfl⟩ := List.cons.inj hmid
      cases ht
      rw [List.append_nil] at hx
      rw [hx.unique hx'] at hfail
      exact hfail.unique hfail'
    | cons p mid =>
      obtain ⟨rfl, rfl⟩ := List.cons.inj hmid
      obtain ⟨y, hy, hrun⟩ := hx.split
      rw [hx'.unique hy] at hfail'
      exact (hfail'.not_checked hrun).elim

/-- A run over all pieces excludes a first failure. -/
theorem FirstFailure.not_checked {pieces : List Piece} {e : LoadError} {b : Bench}
    (h : FirstFailure d load s pieces e b) (h' : Checked load s pieces [] s') : False := by
  obtain ⟨before, t, rest, x, rfl, hx, hfail⟩ := h
  obtain ⟨y, hy, hrun⟩ := h'.split
  rw [hx.unique hy] at hfail
  rw [← List.append_nil rest] at hfail
  exact hfail.not_checked hrun

/-! ## Open templates end -/

/-- The open templates have different names. -/
def Apart (s : Pass) : Prop := (s.stack.map (·.name)).Nodup

theorem apart_start (b : Bench) : (start b).Apart := List.nodup_nil

theorem Step.apart (h : Step load s p s') (hs : s.Apart) : s'.Apart := by
  cases h with
  | text => exact hs
  | var => exact hs
  | includes => exact hs
  | opens hk hn ho hu =>
    refine List.nodup_cons.2 ⟨fun hm => ?_, hs⟩
    obtain ⟨f, hf, he⟩ := List.mem_map.1 hm
    exact ho f hf he
  | closes hk => exact (List.nodup_cons.1 hs).2

/-- **A template that is open ends before those outside it do**, if the pass leaves it. -/
theorem Steps.exists_end (h : Steps load s ps s') {inside outside : List Opened} {f : Opened}
    (hs : s.stack = inside ++ f :: outside) (ha : s.Apart)
    (hlen : s'.stack.length ≤ outside.length) :
    ∃ inner c after, ps = inner ++ .token c :: after ∧ c.kind = .closes f.name ∧
      ∀ g ∈ outside, ∀ p ∈ inner, p.ends g.name = false := by
  induction h generalizing inside with
  | nil =>
    rw [hs] at hlen
    simp only [List.length_append, List.length_cons] at hlen
    omega
  | @cons s s₁ s₂ p ps h hps ih =>
    -- A piece that leaves the template open ends none outside it.
    have hgo : ∀ inside', s₁.stack = inside' ++ f :: outside →
        (∀ g ∈ outside, p.ends g.name = false) →
        ∃ inner c after, p :: ps = inner ++ .token c :: after ∧ c.kind = .closes f.name ∧
          ∀ g ∈ outside, ∀ p ∈ inner, p.ends g.name = false := by
      intro inside' hs₁ hp
      obtain ⟨inner, c, after, rfl, hc, hfree⟩ := ih hs₁ (h.apart ha) hlen
      refine ⟨p :: inner, c, after, rfl, hc, fun g hg q hq => ?_⟩
      rcases List.mem_cons.1 hq with rfl | hq
      · exact hp g hg
      · exact hfree g hg q hq
    have hnone : ∀ t : Token, (∀ name, t.kind ≠ .closes name) →
        ∀ g ∈ outside, (Piece.token t).ends g.name = false :=
      fun t ht g _ => decide_eq_false (ht g.name)
    cases h with
    | text => exact hgo inside hs fun _ _ => rfl
    | var hk => exact hgo inside hs (hnone _ fun name => by rw [hk]; exact nofun)
    | includes hk => exact hgo inside hs (hnone _ fun name => by rw [hk]; exact nofun)
    | opens hk =>
      exact hgo (_ :: inside) (congrArg _ hs) (hnone _ fun name => by rw [hk]; exact nofun)
    | @closes t g stack names parts b hk =>
      cases inside with
      | nil =>
        obtain ⟨rfl, rfl⟩ := List.cons.inj hs
        exact ⟨[], t, ps, rfl, hk, fun _ _ _ hq => nomatch hq⟩
      | cons g' inside =>
        obtain ⟨rfl, rfl⟩ := List.cons.inj hs
        refine hgo inside rfl fun g hg => decide_eq_false fun he => ?_
        rw [hk, TokenKind.closes.injEq] at he
        have hmem : g.name ∈ (inside ++ f :: outside).map (·.name) :=
          List.mem_map_of_mem (List.mem_append_right _ (List.mem_cons_of_mem _ hg))
        rw [← he] at hmem
        exact (List.nodup_cons.1 ha).1 hmem

/-- No end tag of an open template is among the pieces. -/
def Free (stack : List Opened) (ps : List Piece) : Prop :=
  ∀ f ∈ stack, ∀ p ∈ ps, p.ends f.name = false

theorem free_nil : Free [] ps := fun _ hf => nomatch hf

theorem Free.tail {stack : List Opened} (h : Free stack (p :: ps)) : Free stack ps :=
  fun f hf q hq => h f hf q (List.mem_cons_of_mem _ hq)

theorem Free.append_iff {stack : List Opened} :
    Free stack (ps ++ qs) ↔ Free stack ps ∧ Free stack qs := by
  unfold Free
  simp only [List.mem_append, or_imp, forall_and]

/-- The region goes on as long as the innermost open template does not end. -/
theorem region_append {stack : List Opened} (h : Free stack ps) :
    region stack (ps ++ qs) = ps ++ region stack qs := by
  cases stack with
  | nil => rfl
  | cons f stack =>
    refine List.takeWhile_append_of_pos fun p hp => ?_
    rw [h f List.mem_cons_self p hp]
    rfl

/-- **A begin tag that the pass takes is terminated**, if nothing is left open. -/
theorem Step.terminates (h : Step load s (.token t) s') {name : Text} (hk : t.kind = .opens name)
    (ha : s.Apart) (hps : Steps load s' ps s'') (hend : s''.stack = []) :
    s.Terminates name ps := by
  have ha' := h.apart ha
  cases h with
  | var hk' => simp [hk] at hk'
  | includes hk' => simp [hk] at hk'
  | closes hk' => simp [hk] at hk'
  | opens hk' hn ho hu =>
    rw [hk, TokenKind.opens.injEq] at hk'
    subst hk'
    have hlen : s''.stack.length ≤ s.stack.length := by
      rw [hend]
      exact Nat.zero_le _
    obtain ⟨inner, c, after, rfl, hc, hfree⟩ := hps.exists_end (List.nil_append _).symm ha' hlen
    have hcends : Free s.stack [.token c] := by
      intro g hg p hp
      rw [List.mem_singleton.1 hp]
      refine decide_eq_false fun he => ho g hg ?_
      rw [hc, TokenKind.closes.injEq] at he
      exact he.symm
    refine ⟨.token c, ?_, decide_eq_true hc⟩
    rw [region_append hfree, show Piece.token c :: after = [.token c] ++ after from rfl,
      region_append hcends]
    simp

/-- A pass that leaves nothing open passes the checks of all begin tags. -/
theorem Steps.checked (h : Steps load s ps s') (ha : s.Apart) (hend : s'.stack = []) :
    Checked load s ps [] s' := by
  induction h with
  | nil => exact .nil
  | cons h hps ih =>
    refine .cons h (fun t name hp hk => ?_) (ih (h.apart ha) hend)
    subst hp
    rw [List.append_nil]
    exact h.terminates hk ha hps hend

end Pass

end Stencil
