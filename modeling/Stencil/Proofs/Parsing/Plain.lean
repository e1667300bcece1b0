import Stencil.Proofs.Parsing.Run

/-!
# The plain parser

**Numbers** (`Template.unnumbered`). Serial numbers tell instances of templates apart and say
nothing else about them; here they are all set to zero.

**The plain parser** (`plainLevel`, `Parser.plainId`, ...). The parser without a cache and without
serial numbers, as functions that only give an answer. What an include leads to is a parameter of
a level here too.

**Agreement** (`Parsing.Yields`). A step yields a plain answer if, on every bench whose cache has a
property, it answers the same up to numbers and leaves such a cache. `Yields.level` carries this
from the includes of a level to the level, and `Yields.parseWith` to a source, with or without
a cache.
-/

namespace Stencil

/-! ## Numbers -/

/-- The stamp without its serial number. -/
def Stamp.unnumbered (s : Stamp) : Stamp := ⟨0, s.source⟩

mutual

/-- The part without the serial numbers in it. -/
def Part.unnumbered : Part → Part
  | .text content => .text content
  | .var name escape raw => .var name escape raw
  | .nested name form stamp body => .nested name form stamp.unnumbered (Part.allUnnumbered body)

/-- The parts without the serial numbers in them. -/
def Part.allUnnumbered : List Part → List Part
  | [] => []
  | p :: ps => p.unnumbered :: Part.allUnnumbered ps

end

/-- The template without the serial numbers in it. -/
def Template.unnumbered (t : Template) : Template :=
  ⟨t.stamp.unnumbered, Part.allUnnumbered t.parts⟩

/-! ## Plain answers -/

/-- The path in an include tag. -/
def Piece.path? : Piece → Option Text
  | .token t =>
    match t.kind with
    | .includes arg => some (splitInclude arg).2
    | _ => none
  | .text _ => none

/-- The paths in the include tags among pieces. -/
def includePaths (pieces : List Piece) : List Text := pieces.filterMap Piece.path?

/-- The paths in the include tags of a text without its ditch blocks. -/
def Parser.pathsIn (p : Parser) (source : Text) : List Text :=
  match Ditch.strip p.markers.ditch source with
  | .ok (text, _) => includePaths (tokenize p.markers text).pieces
  | .error _ => []

/-- The parts of a level, where `load` gives the template of an include. -/
def plainLevel (d : Draft) (load : Text → Nat → Except LoadError Template) :
    LevelNames → List Piece → Except LoadError (List Part)
  | _, [] => return []
  | names, .text content :: rest => do
    let tail ← plainLevel d load names rest
    return .text content :: tail
  | names, .token t :: rest =>
    match _h : names.judge t rest with
    | .fault f => throw (d.error f t.pos)
    | .var kind name => do
      let tail ← plainLevel d load (names.addVariable name) rest
      return .var name kind t.raw :: tail
    | .opens name inner c after => do
      let body ← plainLevel d load .empty inner
      let tail ← plainLevel d load (names.addNested name) after
      return .nested name (.inline t.raw c.raw) ⟨0, none⟩ body :: tail
    | .includes name path => do
      let template ← load path t.pos
      let tail ← plainLevel d load (names.addNested name) rest
      return .nested name (.included path t.raw) template.stamp template.parts :: tail
termination_by _ pieces => pieces.length
decreasing_by
  all_goals simp_wf
  all_goals
    have := LevelNames.length_of_judge_opens _h
    omega

namespace Parser

/-- What a text parses to, given what an include in it leads to. -/
def plainWith (p : Parser) (load : Draft → Text → Nat → Except LoadError Template)
    (id : Option SourceId) (source : Text) : Except LoadError Template := do
  let d ← Draft.ofSource p.markers.ditch (Stamp.mk 0 id).origin source
  let parts ← plainLevel d (load d) .empty (tokenize p.markers d.text).pieces
  return ⟨⟨0, id⟩, parts⟩

/-- What an include leads to below a stack of includes. -/
def plainIncluded (p : Parser) (load : SourceId → Except LoadError Template)
    (stack : List SourceId) (d : Draft) (path : Text) (pos : Nat) : Except LoadError Template := do
  match ← p.locate path with
  | none => throw (d.error (.invalidIncludePath path) pos)
  | some id =>
    if stack.contains id then
      throw (d.error (.includeCycle ((stack ++ [id]).map SourceId.text)) pos)
    load id

/-- What a source parses to below a stack of includes; so many loads may be nested. -/
def plainId (p : Parser) : Nat → List SourceId → SourceId → Except LoadError Template
  | 0, _, _ => throw .endless
  | depth + 1, stack, id => do
    let source ← p.readText id
    let stack := stack ++ [id]
    p.plainWith (p.plainIncluded (p.plainId depth stack) stack) (some id) source

/-- What a text parses to as an anonymous template. -/
def plainText (p : Parser) (source : Text) : Except LoadError Template :=
  p.plainWith (p.plainIncluded (p.plainId p.depth []) []) none source

/-- What the source at a path parses to. -/
def plainLoad (p : Parser) (path : Text) : Except LoadError Template := do
  match ← p.locate path with
  | none => throw (.resolve (.notFound path))
  | some id => p.plainId p.depth [] id

end Parser

/-! ## Plain levels, verdict by verdict -/

section Level

variable {d : Draft} {load : Text → Nat → Except LoadError Template} {names : LevelNames}
  {t c : Token} {rest inner after : List Piece} {name path : Text}

@[simp] theorem plainLevel_nil : plainLevel d load names [] = .ok [] := by
  rw [plainLevel]; rfl

theorem plainLevel_text (content : Text) :
    plainLevel d load names (.text content :: rest) = do
      let tail ← plainLevel d load names rest
      return .text content :: tail := by
  rw [plainLevel]

/-- A plain level acts on the verdict about its first token. -/
theorem plainLevel_token :
    plainLevel d load names (.token t :: rest) =
      match names.judge t rest with
      | .fault f => .error (d.error f t.pos)
      | .var kind name => do
        let tail ← plainLevel d load (names.addVariable name) rest
        return .var name kind t.raw :: tail
      | .opens name inner c after => do
        let body ← plainLevel d load .empty inner
        let tail ← plainLevel d load (names.addNested name) after
        return .nested name (.inline t.raw c.raw) ⟨0, none⟩ body :: tail
      | .includes name path => do
        let template ← load path t.pos
        let tail ← plainLevel d load (names.addNested name) rest
        return .nested name (.included path t.raw) template.stamp template.parts :: tail := by
  rw [plainLevel]
  split <;> rename_i hj <;> rw [hj]
  rfl

theorem includePaths_text (content : Text) :
    includePaths (.text content :: rest) = includePaths rest := rfl

theorem includePaths_var {kind : EscapeKind} (h : names.judge t rest = .var kind name) :
    includePaths (.token t :: rest) = includePaths rest := by
  obtain ⟨body, hk, -⟩ := LevelNames.judge_var h
  simp [includePaths, Piece.path?, hk]

/-- The tags inside and after an inline template are those behind its opening tag. -/
theorem includePaths_opens (h : names.judge t rest = .opens name inner c after) :
    includePaths (.token t :: rest) = includePaths inner ++ includePaths after := by
  obtain ⟨hk, -, hs, -⟩ := LevelNames.judge_opens h
  obtain ⟨rfl, hc⟩ := splitEnd_eq_some hs
  simp [includePaths, Piece.path?, hk, hc]

theorem includePaths_includes (h : names.judge t rest = .includes name path) :
    includePaths (.token t :: rest) = path :: includePaths rest := by
  obtain ⟨arg, hk, hs, -⟩ := LevelNames.judge_includes h
  simp [includePaths, Piece.path?, hk, hs]

theorem Parser.pathsIn_eq {p : Parser} {origin source : Text}
    (h : Draft.ofSource p.markers.ditch origin source = .ok d) :
    p.pathsIn source = includePaths (tokenize p.markers d.text).pieces := by
  unfold Draft.ofSource at h
  unfold Parser.pathsIn
  cases hs : Ditch.strip p.markers.ditch source with
  | ok r =>
    obtain ⟨text, cuts⟩ := r
    simp only [hs, Except.ok.injEq] at h
    rw [← h]
  | error offset =>
    rw [hs] at h
    cases h

end Level

/-! ## Agreement -/

namespace Parsing

variable {α β γ δ : Type} {inv : Cache SourceId Template → Prop}

/-- On every bench whose cache has a property, the step answers `r` as `f` sees it, and it leaves
a cache with the property. -/
def Yields (inv : Cache SourceId Template → Prop) (f : α → β) (x : Parsing α)
    (r : Except LoadError β) : Prop := Runs inv x fun a => a.map f = r

theorem Yields.pure {f : α → β} {a : α} {b : β} (h : f a = b) :
    Yields inv f (pure a) (.ok b) := Runs.pure (by simp [Except.map, h])

theorem Yields.throw {f : α → β} (e : LoadError) : Yields inv f (throw e) (.error e) :=
  Runs.throw rfl

theorem Yields.bind {f : α → β} {g : γ → δ} {x : Parsing α} {r : Except LoadError β}
    {k : α → Parsing γ} {l : β → Except LoadError δ} (hx : Yields inv f x r)
    (hk : ∀ a, Yields inv g (k a) (l (f a))) : Yields inv g (x >>= k) (r >>= l) := by
  refine Runs.bind hx (fun a ha => ?_) fun e he => ?_
  · subst ha
    exact hk a
  · subst he
    rfl

/-- Drawing a serial number has no effect on a plain answer. -/
theorem Yields.freshStamp_bind {g : γ → δ} {source : Option SourceId} {k : Stamp → Parsing γ}
    {r : Except LoadError δ} (hk : ∀ serial, Yields inv g (k ⟨serial, source⟩) r) :
    Yields inv g (freshStamp source >>= k) r := by
  have hs : Runs inv (freshStamp source) fun s => ∃ n, s = .ok ⟨n, source⟩ :=
    .freshStamp fun n => ⟨n, rfl⟩
  refine hs.bind ?_ ?_
  · rintro _ ⟨n, hn⟩
    cases hn
    exact hk n
  · rintro _ ⟨n, hn⟩
    cases hn

/-- **A level agrees with its plain form if its includes do.** -/
theorem Yields.level {d : Draft} {load : Text → Nat → Parsing Template}
    {plain : Text → Nat → Except LoadError Template} (names : LevelNames) (pieces : List Piece)
    (h : ∀ path ∈ includePaths pieces, ∀ pos,
      Yields inv Template.unnumbered (load path pos) (plain path pos)) :
    Yields inv Part.allUnnumbered (level d load names pieces)
      (plainLevel d plain names pieces) := by
  induction names, pieces using level_induction with
  | nil names =>
    rw [level_nil, plainLevel_nil]
    exact .pure rfl
  | text names content rest ih =>
    rw [level_text, plainLevel_text]
    rw [includePaths_text] at h
    exact .bind (ih h) fun _ => .pure rfl
  | fault names t rest f hj =>
    rw [level_token, plainLevel_token, hj]
    exact .throw _
  | var names t rest kind name hj ih =>
    rw [level_token, plainLevel_token, hj]
    rw [includePaths_var hj] at h
    exact .bind (ih h) fun _ => .pure rfl
  | opens names t rest name inner c after hj ih₁ ih₂ =>
    rw [level_token, plainLevel_token, hj]
    rw [includePaths_opens hj] at h
    refine .bind (ih₁ fun path hp => h path (List.mem_append_left _ hp)) fun body => ?_
    refine .freshStamp_bind fun serial => ?_
    exact .bind (ih₂ fun path hp => h path (List.mem_append_right _ hp)) fun _ => .pure rfl
  | includes names t rest name path hj ih =>
    rw [level_token, plainLevel_token, hj]
    rw [includePaths_includes hj] at h
    refine .bind (h path List.mem_cons_self t.pos) fun template => ?_
    exact .bind (ih fun path hp => h path (List.mem_cons_of_mem _ hp)) fun _ => .pure rfl

/-- A source agrees with its plain form if its includes do. -/
theorem Yields.parseWith {p : Parser} {load : Draft → Text → Nat → Parsing Template}
    {plain : Draft → Text → Nat → Except LoadError Template} (id : Option SourceId) (source : Text)
    (h : ∀ d, ∀ path ∈ p.pathsIn source, ∀ pos,
      Yields inv Template.unnumbered (load d path pos) (plain d path pos)) :
    Yields inv Template.unnumbered (p.parseWith load id source) (p.plainWith plain id source) := by
  unfold Parser.parseWith Parser.plainWith
  refine .freshStamp_bind fun serial => ?_
  show Yields inv _ (liftM (Draft.ofSource p.markers.ditch (Stamp.mk 0 id).origin source) >>= _) _
  cases hd : Draft.ofSource p.markers.ditch (Stamp.mk 0 id).origin source with
  | error e =>
    rw [lift_error_bind]
    exact .throw e
  | ok d =>
    rw [lift_ok_bind]
    show Yields inv _ _ (plainLevel d (plain d) .empty (tokenize p.markers d.text).pieces >>= _)
    rw [Parser.pathsIn_eq hd] at h
    exact .bind (.level _ _ (h d)) fun _ => .pure rfl

end Parsing

end Stencil
