import Stencil.Cache.Run
import Stencil.Markup.Wrapper
import Stencil.Parser.Error
import Stencil.Source.Path
import Stencil.Template.Basic

/-!
# Levels

**The parser's state** (`Bench`). The cache of templates, and the next serial number.

**A level** (`level`). The pieces of one level become its parts from left to right. A begin tag
claims the pieces up to the nearest end tag of its name, and these are a level of their own, so
tags of another name inside may not reach out of it. The first fault in the order of the source is
the one that is reported.

**Names** (`LevelNames`). A variable may come again on its level; a nested template may share its
name with nothing.

**Includes.** How an included template is had is a parameter, so a level is read in the same way
whether templates are cached or not.
-/

namespace Stencil

/-- Cached templates, and the next serial number. -/
abbrev Bench := Cache SourceId Template × Nat

/-- A step of the parser. The state is kept when a step fails. -/
abbrev Parsing := ExceptT LoadError (StateM Bench)

/-- A stamp with a serial number that no other template has. -/
def freshStamp (source : Option SourceId) : Parsing Stamp := do
  let (cache, serial) ← get
  set (cache, serial + 1)
  return ⟨serial, source⟩

/-- The names used on a level so far. -/
structure LevelNames where
  vars : List Text
  nested : List Text

namespace LevelNames

def empty : LevelNames := ⟨[], []⟩

/-- The name is used for something. -/
def uses (names : LevelNames) (name : Text) : Bool :=
  names.vars.contains name || names.nested.contains name

def addVariable (names : LevelNames) (name : Text) : LevelNames :=
  { names with vars := name :: names.vars }

def addNested (names : LevelNames) (name : Text) : LevelNames :=
  { names with nested := name :: names.nested }

end LevelNames

/-- The pieces before the nearest end tag of a name, the tag, and the pieces after it. -/
def splitEnd (name : Text) : List Piece → Option (List Piece × Token × List Piece)
  | [] => none
  | .text t :: rest =>
    (splitEnd name rest).map fun (inner, c, after) => (.text t :: inner, c, after)
  | .token t :: rest =>
    if t.kind = .closes name then some ([], t, rest)
    else (splitEnd name rest).map fun (inner, c, after) => (.token t :: inner, c, after)

theorem splitEnd_eq_some {name : Text} {ps inner after : List Piece} {c : Token}
    (h : splitEnd name ps = some (inner, c, after)) :
    ps = inner ++ .token c :: after ∧ c.kind = .closes name := by
  induction ps generalizing inner with
  | nil => simp [splitEnd] at h
  | cons p ps ih =>
    cases p with
    | text t =>
      simp only [splitEnd, Option.map_eq_some_iff, Prod.mk.injEq] at h
      obtain ⟨⟨i, d, a⟩, hs, rfl, rfl, rfl⟩ := h
      obtain ⟨rfl, hk⟩ := ih hs
      exact ⟨rfl, hk⟩
    | token t =>
      by_cases ht : t.kind = .closes name
      · simp only [splitEnd, ht, if_true, Option.some.injEq, Prod.mk.injEq] at h
        obtain ⟨rfl, rfl, rfl⟩ := h
        exact ⟨rfl, ht⟩
      · simp only [splitEnd, ht, if_false, Option.map_eq_some_iff, Prod.mk.injEq] at h
        obtain ⟨⟨i, d, a⟩, hs, rfl, rfl, rfl⟩ := h
        obtain ⟨rfl, hk⟩ := ih hs
        exact ⟨rfl, hk⟩

/-- The escape kind and the name in the body of a variable. -/
def splitVariable (d : Draft) (pos : Nat) (body : Text) : Except LoadError (EscapeKind × Text) :=
  match Text.splitOnce ':' body with
  | some (token, name) =>
    match EscapeKind.ofToken? token with
    | some kind => .ok (kind, name)
    | none => .error (d.error (.badEscapeKind token) pos)
  | none => .ok (.unspecified, body)

/-- The name and the path in the argument of an include tag. -/
def splitInclude (arg : Text) : Text × Text :=
  (Text.splitOnce ':' arg).getD (Path.baseName arg, arg)

/-- The parts of a level, where `load` gives the template of an include by its path and the
position of its tag. -/
def level (d : Draft) (load : Text → Nat → Parsing Template) (names : LevelNames) :
    List Piece → Parsing (List Part)
  | [] => return []
  | .text t :: rest => return .text t :: (← level d load names rest)
  | .token t :: rest =>
    match t.kind with
    | .var body => do
      let (kind, name) ← splitVariable d t.pos body
      if name.isEmpty then throw (d.error .emptyVariableName t.pos)
      if names.nested.contains name then throw (d.error (.duplicateName name) t.pos)
      return .var name kind t.raw :: (← level d load (names.addVariable name) rest)
    | .opens name => do
      if name.isEmpty then throw (d.error .emptyTemplateName t.pos)
      match _h : splitEnd name rest with
      | none => throw (d.error (.templateNotTerminated name) t.pos)
      | some (inner, c, after) =>
        if names.uses name then throw (d.error (.duplicateName name) t.pos)
        let body ← level d load .empty inner
        let stamp ← freshStamp none
        let tail ← level d load (names.addNested name) after
        return .nested name (.inline t.raw c.raw) stamp body :: tail
    | .closes name => throw (d.error (.danglingEnd name) t.pos)
    | .includes arg => do
      let (name, path) := splitInclude arg
      if path.isEmpty then throw (d.error .emptyIncludePath t.pos)
      if name.isEmpty then throw (d.error .emptyTemplateName t.pos)
      if names.uses name then throw (d.error (.duplicateName name) t.pos)
      let template ← load path t.pos
      let tail ← level d load (names.addNested name) rest
      return .nested name (.included path t.raw) template.stamp template.parts :: tail
    | .unknown keyword => throw (d.error (.unknownTag keyword) t.pos)
    | .stray => throw (d.error .malformedTag t.pos)
termination_by ps => ps.length
decreasing_by
  all_goals simp_wf
  all_goals
    have := congrArg List.length (splitEnd_eq_some _h).1
    simp only [List.length_append, List.length_cons] at this
    omega

end Stencil
