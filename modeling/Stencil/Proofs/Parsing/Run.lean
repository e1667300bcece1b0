import Stencil.Parser.Load

/-!
# Running the parser

**Runs** (`Parsing.on`). A step of the parser takes a bench and gives an answer and a bench, and
steps in sequence run one after the other; a failed one ends the sequence.

**Verdicts** (`LevelNames.judge`). What the token at the head of a level comes to depends on the
names used so far and on the pieces behind it, and on nothing else: it is a fault, a variable, an
inline template with the pieces inside and after it, or an include. `level_token` says that `level`
acts on that verdict, and `level_induction` goes along with it, so that proofs about levels have
one case for each verdict and never open `level` itself.

**Sources** (`Parser.on_parseWith_ok`). A source is one level once its ditch blocks are cut out.

**Rules** (`Parsing.Runs`). A step keeps a property of the cache and answers within a given
condition. There is one rule for each way to build a step.
-/

namespace Stencil

/-! ## Answers of a sequence -/

section Bind

variable {α β ε : Type} {r : Except ε α} {k : α → Except ε β}

theorem ok_bind (a : α) (k : α → Except ε β) : (Except.ok a >>= k) = k a := rfl

theorem bind_eq_ok {b : β} (h : r >>= k = .ok b) : ∃ a, r = .ok a ∧ k a = .ok b := by
  cases r with
  | ok a => exact ⟨a, rfl, h⟩
  | error e => cases h

theorem map_eq_ok {f : α → β} {b : β} (h : r.map f = .ok b) : ∃ a, r = .ok a ∧ f a = b := by
  cases r with
  | ok a => exact ⟨a, rfl, Except.ok.inj h⟩
  | error e => cases h

theorem bind_eq_error {e : ε} (h : r >>= k = .error e) :
    r = .error e ∨ ∃ a, r = .ok a ∧ k a = .error e := by
  cases r with
  | ok a => exact .inr ⟨a, rfl, h⟩
  | error f =>
    cases h
    exact .inl rfl

end Bind

/-! ## Runs -/

namespace Parsing

variable {α β : Type}

/-- What a step answers on a bench, and the bench it leaves. -/
def on (x : Parsing α) (b : Bench) : Except LoadError α × Bench := x.run.run b

theorem eq_of_on {x y : Parsing α} (h : ∀ b, x.on b = y.on b) : x = y := funext h

@[simp] theorem on_throw (e : LoadError) (b : Bench) :
    (throw e : Parsing α).on b = (.error e, b) := rfl

@[simp] theorem on_lift (r : Except LoadError α) (b : Bench) :
    (liftM r : Parsing α).on b = (r, b) := by
  cases r <;> rfl

@[simp] theorem on_freshStamp (source : Option SourceId) (b : Bench) :
    (freshStamp source).on b = (.ok ⟨b.2, source⟩, (b.1, b.2 + 1)) := rfl

/-- A given answer is passed on. -/
theorem lift_ok_bind (a : α) (k : α → Parsing β) :
    (liftM (.ok a : Except LoadError α) : Parsing α) >>= k = k a := eq_of_on fun _ => rfl

theorem lift_error_bind (e : LoadError) (k : α → Parsing β) :
    (liftM (.error e : Except LoadError α) : Parsing α) >>= k = throw e := eq_of_on fun _ => rfl

theorem on_bind (x : Parsing α) (k : α → Parsing β) (b : Bench) :
    (x >>= k).on b =
      match x.on b with
      | (.ok a, c) => (k a).on c
      | (.error e, c) => (.error e, c) := by
  simp only [on, ExceptT.run_bind, StateT.run_bind]
  cases x.run.run b with
  | mk r c => cases r <;> rfl

/-- A sequence that answers has first steps that answer. -/
theorem of_on_bind_ok {x : Parsing α} {k : α → Parsing β} {b c : Bench} {a : β}
    (h : (x >>= k).on b = (.ok a, c)) :
    ∃ a' b', x.on b = (.ok a', b') ∧ (k a').on b' = (.ok a, c) := by
  rw [on_bind] at h
  cases hx : x.on b with
  | mk r b' =>
    rw [hx] at h
    cases r with
    | ok a' => exact ⟨a', b', rfl, h⟩
    | error e => cases h

/-- A sequence that fails does so at its first steps or after them. -/
theorem of_on_bind_error {x : Parsing α} {k : α → Parsing β} {b c : Bench} {e : LoadError}
    (h : (x >>= k).on b = (.error e, c)) :
    x.on b = (.error e, c) ∨ ∃ a b', x.on b = (.ok a, b') ∧ (k a).on b' = (.error e, c) := by
  rw [on_bind] at h
  cases hx : x.on b with
  | mk r b' =>
    rw [hx] at h
    cases r with
    | ok a => exact .inr ⟨a, b', rfl, h⟩
    | error e' =>
      cases h
      exact .inl rfl

end Parsing

/-! ## Verdicts -/

/-- What the token at the head of a level comes to. -/
inductive Verdict where
  | fault (f : Fault)
  | var (kind : EscapeKind) (name : Text)
  | opens (name : Text) (inner : List Piece) (closer : Token) (after : List Piece)
  | includes (name path : Text)

/-- The escape kind and the name in the body of a variable. -/
def readVariable (body : Text) : Except Fault (EscapeKind × Text) :=
  match Text.splitOnce ':' body with
  | some (token, name) =>
    match EscapeKind.ofToken? token with
    | some kind => .ok (kind, name)
    | none => .error (.badEscapeKind token)
  | none => .ok (.unspecified, body)

theorem splitVariable_eq (d : Draft) (pos : Nat) (body : Text) :
    splitVariable d pos body = (readVariable body).mapError fun f => d.error f pos := by
  unfold splitVariable readVariable
  cases Text.splitOnce ':' body with
  | none => rfl
  | some r =>
    obtain ⟨token, name⟩ := r
    cases hk : EscapeKind.ofToken? token <;> simp only [hk] <;> rfl

/-- What a token comes to on a level with these names so far and these pieces behind it. -/
def LevelNames.judge (names : LevelNames) (t : Token) (rest : List Piece) : Verdict :=
  match t.kind with
  | .var body =>
    match readVariable body with
    | .error f => .fault f
    | .ok (kind, name) =>
      if name = [] then .fault .emptyVariableName
      else if name ∈ names.nested then .fault (.duplicateName name)
      else .var kind name
  | .opens name =>
    if name = [] then .fault .emptyTemplateName
    else match splitEnd name rest with
      | none => .fault (.templateNotTerminated name)
      | some (inner, c, after) =>
        if names.uses name then .fault (.duplicateName name) else .opens name inner c after
  | .closes name => .fault (.danglingEnd name)
  | .includes arg =>
    match splitInclude arg with
    | (name, path) =>
      if path = [] then .fault .emptyIncludePath
      else if name = [] then .fault .emptyTemplateName
      else if names.uses name then .fault (.duplicateName name)
      else .includes name path
  | .unknown keyword => .fault (.unknownTag keyword)
  | .stray => .fault .malformedTag

theorem LevelNames.judge_var {names : LevelNames} {t : Token} {rest : List Piece}
    {kind : EscapeKind} {name : Text} (h : names.judge t rest = .var kind name) :
    ∃ body, t.kind = .var body ∧ readVariable body = .ok (kind, name) ∧ name ≠ [] ∧
      name ∉ names.nested := by
  grind [LevelNames.judge]

theorem LevelNames.judge_opens {names : LevelNames} {t c : Token} {rest inner after : List Piece}
    {name : Text} (h : names.judge t rest = .opens name inner c after) :
    t.kind = .opens name ∧ name ≠ [] ∧ splitEnd name rest = some (inner, c, after) ∧
      names.uses name = false := by
  grind [LevelNames.judge]

theorem LevelNames.judge_includes {names : LevelNames} {t : Token} {rest : List Piece}
    {name path : Text} (h : names.judge t rest = .includes name path) :
    ∃ arg, t.kind = .includes arg ∧ splitInclude arg = (name, path) ∧ path ≠ [] ∧ name ≠ [] ∧
      names.uses name = false := by
  grind [LevelNames.judge]

/-- The pieces that an inline template claims are fewer than those behind its opening tag. -/
theorem LevelNames.length_of_judge_opens {names : LevelNames} {t c : Token}
    {rest inner after : List Piece} {name : Text}
    (h : names.judge t rest = .opens name inner c after) :
    inner.length + after.length + 1 = rest.length := by
  obtain ⟨-, -, hs, -⟩ := judge_opens h
  have := congrArg List.length (splitEnd_eq_some hs).1
  simp only [List.length_append, List.length_cons] at this
  omega

variable {d : Draft} {load : Text → Nat → Parsing Template} {names : LevelNames} {t : Token}
  {rest : List Piece}

@[simp] theorem level_nil : level d load names [] = pure [] := by rw [level]

theorem level_text (content : Text) :
    level d load names (.text content :: rest) = do
      let tail ← level d load names rest
      return .text content :: tail := by
  rw [level]

/-- **A level acts on the verdict about its first token.** -/
theorem level_token :
    level d load names (.token t :: rest) =
      match names.judge t rest with
      | .fault f => throw (d.error f t.pos)
      | .var kind name => do
        let tail ← level d load (names.addVariable name) rest
        return .var name kind t.raw :: tail
      | .opens name inner c after => do
        let body ← level d load .empty inner
        let stamp ← freshStamp none
        let tail ← level d load (names.addNested name) after
        return .nested name (.inline t.raw c.raw) stamp body :: tail
      | .includes name path => do
        let template ← load path t.pos
        let tail ← level d load (names.addNested name) rest
        return .nested name (.included path t.raw) template.stamp template.parts :: tail := by
  rw [level]
  unfold LevelNames.judge
  cases t.kind with
  | var body =>
    simp only [splitVariable_eq]
    cases readVariable body with
    | error f => rfl
    | ok r =>
      obtain ⟨kind, name⟩ := r
      by_cases h1 : name = []
      · subst h1; rfl
      · have hl : (liftM ((.ok (kind, name) : Except Fault (EscapeKind × Text)).mapError
            fun f => d.error f t.pos) : Parsing _) = pure (kind, name) := rfl
        by_cases h2 : name ∈ names.nested <;> simp [h1, h2, hl]
  | opens name =>
    by_cases h1 : name = []
    · subst h1; rfl
    · simp only [List.isEmpty_iff, h1, if_false]
      split
      · rename_i hs; simp [hs]
      · rename_i inner c after hs
        by_cases h2 : names.uses name <;> simp [h2, hs]
  | closes name => rfl
  | includes arg =>
    cases hi : splitInclude arg with
    | mk name path =>
      by_cases h1 : path = []
      · subst h1; simp [hi]
      · by_cases h2 : name = []
        · subst h2; simp [h1, hi]
        · by_cases h3 : names.uses name <;> simp [h1, h2, h3, hi]
  | unknown => rfl
  | stray => rfl

/-- Induction along a level, one case for each verdict. -/
theorem level_induction {motive : LevelNames → List Piece → Prop}
    (nil : ∀ names, motive names [])
    (text : ∀ names content rest, motive names rest → motive names (.text content :: rest))
    (fault : ∀ names t rest f, names.judge t rest = .fault f → motive names (.token t :: rest))
    (var : ∀ names t rest kind name, names.judge t rest = .var kind name →
      motive (names.addVariable name) rest → motive names (.token t :: rest))
    (opens : ∀ names t rest name inner c after, names.judge t rest = .opens name inner c after →
      motive .empty inner → motive (names.addNested name) after → motive names (.token t :: rest))
    (includes : ∀ names t rest name path, names.judge t rest = .includes name path →
      motive (names.addNested name) rest → motive names (.token t :: rest))
    (names : LevelNames) (pieces : List Piece) : motive names pieces := by
  induction hn : pieces.length using Nat.strongRecOn generalizing names pieces with
  | _ n ih =>
    subst hn
    cases pieces with
    | nil => exact nil names
    | cons p rest =>
      cases p with
      | text content => exact text names content rest (ih _ (by simp) names rest rfl)
      | token t =>
        cases hj : names.judge t rest with
        | fault f => exact fault names t rest f hj
        | var kind name => exact var names t rest kind name hj (ih _ (by simp) _ rest rfl)
        | includes name path => exact includes names t rest name path hj (ih _ (by simp) _ rest rfl)
        | opens name inner c after =>
          have hl := LevelNames.length_of_judge_opens hj
          exact opens names t rest name inner c after hj
            (ih _ (by simp only [List.length_cons]; omega) _ inner rfl)
            (ih _ (by simp only [List.length_cons]; omega) _ after rfl)

/-! ## Sources -/

namespace Parser

variable {p : Parser} {d : Draft} {id : Option SourceId} {source : Text} {b : Bench}

theorem on_parseWith_ok (load : Draft → Text → Nat → Parsing Template)
    (h : Draft.ofSource p.markers.ditch (Stamp.mk b.2 id).origin source = .ok d) :
    (p.parseWith load id source).on b =
      (level d (load d) .empty (tokenize p.markers d.text).pieces >>= fun parts =>
        pure (⟨⟨b.2, id⟩, parts⟩ : Template)).on (b.1, b.2 + 1) := by
  unfold parseWith
  rw [Parsing.on_bind, Parsing.on_freshStamp]
  dsimp only
  rw [h, Parsing.lift_ok_bind]

/-- An open ditch block ends the parse, with a serial number drawn. -/
theorem on_parseWith_error (load : Draft → Text → Nat → Parsing Template) {e : LoadError}
    (h : Draft.ofSource p.markers.ditch (Stamp.mk b.2 id).origin source = .error e) :
    (p.parseWith load id source).on b = (.error e, (b.1, b.2 + 1)) := by
  unfold parseWith
  rw [Parsing.on_bind, Parsing.on_freshStamp]
  dsimp only
  rw [h, Parsing.lift_error_bind, Parsing.on_throw]

end Parser

/-! ## Rules -/

namespace Parsing

variable {α β : Type} {inv : Cache SourceId Template → Prop} {post : Except LoadError α → Prop}

/-- On every bench whose cache has a property, the step answers within a condition and leaves a
cache with the property. -/
def Runs (inv : Cache SourceId Template → Prop) (x : Parsing α)
    (post : Except LoadError α → Prop) : Prop :=
  ∀ b, inv b.1 → post (x.on b).1 ∧ inv (x.on b).2.1

theorem Runs.pure {a : α} (h : post (.ok a)) : Runs inv (pure a) post := fun _ hb => ⟨h, hb⟩

theorem Runs.throw {e : LoadError} (h : post (.error e)) : Runs inv (throw e) post :=
  fun _ hb => ⟨h, hb⟩

theorem Runs.freshStamp {source : Option SourceId} {post : Except LoadError Stamp → Prop}
    (h : ∀ serial, post (.ok ⟨serial, source⟩)) : Runs inv (freshStamp source) post :=
  fun b hb => ⟨h b.2, hb⟩

theorem Runs.bind {mid : Except LoadError α → Prop} {post : Except LoadError β → Prop}
    {x : Parsing α} {k : α → Parsing β} (hx : Runs inv x mid)
    (hk : ∀ a, mid (.ok a) → Runs inv (k a) post) (he : ∀ e, mid (.error e) → post (.error e)) :
    Runs inv (x >>= k) post := by
  intro b hb
  obtain ⟨hm, hc⟩ := hx b hb
  rw [on_bind]
  cases hr : x.on b with
  | mk r c =>
    rw [hr] at hm hc
    cases r with
    | ok a => exact hk a hm c hc
    | error e => exact ⟨he e hm, hc⟩

/-- On every bench whose cache has a property, what the step answers satisfies a condition if it
does not fail, and the cache it leaves has the property. -/
def Ensures (inv : Cache SourceId Template → Prop) (x : Parsing α) (good : α → Prop) : Prop :=
  Runs inv x fun r => ∀ a, r = .ok a → good a

variable {good : α → Prop}

theorem Ensures.pure {a : α} (h : good a) : Ensures inv (pure a) good :=
  Runs.pure fun b hb => by
    cases hb
    exact h

theorem Ensures.throw (e : LoadError) : Ensures inv (throw e) good :=
  Runs.throw fun _ h => nomatch h

theorem Ensures.imp {fine : α → Prop} {x : Parsing α} (h : Ensures inv x good)
    (hi : ∀ a, good a → fine a) : Ensures inv x fine :=
  fun b hb => ⟨fun a ha => hi a ((h b hb).1 a ha), (h b hb).2⟩

theorem Ensures.bind {fine : β → Prop} {x : Parsing α} {k : α → Parsing β}
    (hx : Ensures inv x good) (hk : ∀ a, good a → Ensures inv (k a) fine) :
    Ensures inv (x >>= k) fine := by
  refine Runs.bind hx (fun a ha => hk a (ha a rfl)) ?_
  exact fun _ _ _ h => nomatch h

/-- A given answer needs no condition but its own. -/
theorem Ensures.lift_bind {fine : β → Prop} {r : Except LoadError α} {k : α → Parsing β}
    (hk : ∀ a, r = .ok a → Ensures inv (k a) fine) : Ensures inv (liftM r >>= k) fine := by
  cases r with
  | error e =>
    rw [lift_error_bind]
    exact .throw e
  | ok a =>
    rw [lift_ok_bind]
    exact hk a rfl

theorem Ensures.freshStamp_bind {fine : β → Prop} {source : Option SourceId}
    {k : Stamp → Parsing β} (hk : ∀ serial, Ensures inv (k ⟨serial, source⟩) fine) :
    Ensures inv (Stencil.freshStamp source >>= k) fine := by
  have hs : Ensures inv (Stencil.freshStamp source) fun s => s.source = source :=
    Runs.freshStamp fun serial s h => by
      cases h
      rfl
  refine hs.bind fun s hs => ?_
  obtain ⟨serial, _⟩ := s
  cases hs
  exact hk serial

end Parsing

end Stencil
