import Stencil.Table
import Stencil.Template.Basic

/-!
# Binding states

**The state** (`State`). What is bound at one level of a template: a slot for each part, filled at
the positions of variables with escaped text; the states of each nested template, one for each
repetition; the names resolved so far; and how often each template was repeated, by its identity.

**Unresolved names.** A path names a level by nested templates and repetitions, as in
`rows[1].title`. `State.unresolved` lists the paths of all names that are still open, and
`State.firstUnresolved?` stops at the first one.

**Scopes** (`State.editAt`). Any level can be reached from the root and changed in place.
-/

namespace Stencil

/-- The bindings of one level of a template. -/
structure State where
  template : Template
  slots : List (Option Text)
  children : List (Text × List State)
  resolved : List Text
  repetitions : List (TemplateId × Nat)

namespace State

/-- Nothing is bound. -/
def new (t : Template) : State := ⟨t, List.replicate t.parts.length none, [], [], []⟩

/-- The text at a position, if a variable there is set. -/
def slot (s : State) (i : Nat) : Option Text := s.slots[i]?.join

/-- The states of a nested template, one for each repetition; none before it is populated. -/
def childrenOf (s : State) (name : Text) : List State := (Table.get? s.children name).getD []

/-- The name is resolved on this level. -/
def isResolved (s : State) (name : Text) : Bool := s.resolved.contains name

theorem sizeOf_lt_of_mem_childrenOf {s c : State} {name : Text} (h : c ∈ s.childrenOf name) :
    sizeOf c < sizeOf s := by
  simp only [childrenOf] at h
  cases hg : Table.get? s.children name with
  | none => simp [hg] at h
  | some cs =>
    rw [hg, Option.getD_some] at h
    have h1 := List.sizeOf_lt_of_mem h
    have h2 := List.sizeOf_lt_of_mem (Table.mem_of_get? hg)
    obtain ⟨t, slots, children, resolved, repetitions⟩ := s
    simp only [State.mk.sizeOf_spec, Prod.mk.sizeOf_spec] at *
    omega

/-! ## Paths -/

/-- The path of a repetition, up to the point before its own names. -/
def enter (path name : Text) (i : Nat) : Text := path ++ name ++ '[' :: Text.ofNat i ++ [']', '.']

/-- The paths of all open names on this level and below. -/
def unresolvedFrom (path : Text) (s : State) : List Text :=
  s.template.names.flatMap fun name =>
    if s.isResolved name then
      (s.childrenOf name).attach.zipIdx.flatMap fun (⟨c, _⟩, i) =>
        unresolvedFrom (enter path name i) c
    else [path ++ name]
termination_by sizeOf s
decreasing_by exact sizeOf_lt_of_mem_childrenOf ‹_›

def unresolved (s : State) : List Text := s.unresolvedFrom []

/-- The path of the first open name on this level or below. -/
def firstUnresolvedFrom? (path : Text) (s : State) : Option Text :=
  s.template.names.findSome? fun name =>
    if s.isResolved name then
      (s.childrenOf name).attach.zipIdx.findSome? fun (⟨c, _⟩, i) =>
        firstUnresolvedFrom? (enter path name i) c
    else some (path ++ name)
termination_by sizeOf s
decreasing_by exact sizeOf_lt_of_mem_childrenOf ‹_›

def firstUnresolved? (s : State) : Option Text := s.firstUnresolvedFrom? []

theorem flatMap_attach_zipIdx {α β : Type} (cs : List α) (f : α → Nat → List β) :
    (cs.attach.zipIdx.flatMap fun e => f e.1.val e.2) = cs.zipIdx.flatMap fun e => f e.1 e.2 := by
  conv =>
    rhs
    rw [← List.attach_map_subtype_val cs, List.zipIdx_map, List.flatMap_map]
  rfl

theorem findSome?_attach_zipIdx {α β : Type} (cs : List α) (f : α → Nat → Option β) :
    (cs.attach.zipIdx.findSome? fun e => f e.1.val e.2) =
      cs.zipIdx.findSome? fun e => f e.1 e.2 := by
  conv =>
    rhs
    rw [← List.attach_map_subtype_val cs, List.zipIdx_map, List.findSome?_map]
  rfl

theorem unresolvedFrom_eq (path : Text) (s : State) :
    s.unresolvedFrom path = s.template.names.flatMap fun name =>
      if s.isResolved name then
        (s.childrenOf name).zipIdx.flatMap fun e => e.1.unresolvedFrom (enter path name e.2)
      else [path ++ name] := by
  rw [unresolvedFrom]
  congr 1
  funext name
  split
  · exact flatMap_attach_zipIdx _ fun c i => unresolvedFrom (enter path name i) c
  · rfl

theorem firstUnresolvedFrom?_eq (path : Text) (s : State) :
    s.firstUnresolvedFrom? path = s.template.names.findSome? fun name =>
      if s.isResolved name then
        (s.childrenOf name).zipIdx.findSome? fun e =>
          e.1.firstUnresolvedFrom? (enter path name e.2)
      else some (path ++ name) := by
  rw [firstUnresolvedFrom?]
  congr 1
  funext name
  split
  · exact findSome?_attach_zipIdx _ fun c i => firstUnresolvedFrom? (enter path name i) c
  · rfl

/-- Every name on this level and below is resolved. -/
def isComplete (s : State) : Bool := s.firstUnresolved?.isNone

/-- This level and all below it, each with its path. -/
def levelsFrom (path : Text) (s : State) : List (Text × State) :=
  (path, s) :: s.template.nestedNames.flatMap fun name =>
    (s.childrenOf name).attach.zipIdx.flatMap fun (⟨c, _⟩, i) =>
      levelsFrom (enter path name i) c
termination_by sizeOf s
decreasing_by exact sizeOf_lt_of_mem_childrenOf ‹_›

def levels (s : State) : List (Text × State) := s.levelsFrom []

/-! ## Scopes -/

/-- Why a level cannot be reached. -/
inductive ScopeError where
  | unknownTemplate (name : Text)
  /-- The nested template has only so many repetitions. -/
  | noRepetition (count : Nat)
  deriving DecidableEq, Repr

/-- One step of the way to a level: a nested template and one of its repetitions. -/
abbrev Scope := List (Text × Nat)

/-- The state with one child replaced. -/
def setChild (s : State) (name : Text) (i : Nat) (c : State) : State :=
  { s with children := Table.set s.children name ((s.childrenOf name).set i c) }

/-- Changes the level that a scope leads to. -/
def editAt {α : Type} : Scope → (State → State × α) → State → State × Except ScopeError α
  | [], f, s => let (s, a) := f s; (s, .ok a)
  | (name, i) :: rest, f, s =>
    if s.template.hasNested name then
      match (s.childrenOf name)[i]? with
      | some c =>
        let (c, r) := editAt rest f c
        (s.setChild name i c, r)
      | none => (s, .error (.noRepetition (s.childrenOf name).length))
    else (s, .error (.unknownTemplate name))

end State

end Stencil
