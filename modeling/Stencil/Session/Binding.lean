import Stencil.Data.Value
import Stencil.Session.State

/-!
# Binding values

**Variables** (`State.setVariable`). Each occurrence is escaped in its own kind, or in the kind
that is given if it has none. Every fragment is escaped on its own.

**Nested templates** (`State.populateWith`). One repetition for each item. Nested templates of one
level that come from the same source must have as many repetitions.

**Seeding** (`State.seed`). The names of a level are asked of one item, in order. Names already
resolved are passed over, and names that the item does not have stay open.

| value | variable | nested template |
|---|---|---|
| text, fragments, number | set | mismatch |
| true | `true` | the item itself, once |
| false | `false` | no repetition |
| null | empty | no repetition |
| items | mismatch | one repetition for each |
| absent | stays open | stays open |

**Failure.** A binding that fails leaves its state as it was. Seeding that fails keeps the names
bound before the failing one.
-/

namespace Stencil

/-- What is against the rules of binding. -/
inductive SessionError where
  | unknownVariable (name : Text)
  | alreadySet (name : Text)
  | escapeRequired (name : Text)
  | unknownTemplate (name : Text)
  | alreadyPopulated (name : Text)
  | repetitionMismatch (name : Text) (expected actual : Nat)
  | unknownName (name : Text)
  | incomplete (path : Text)
  deriving DecidableEq, Repr

def SessionError.message : SessionError → String
  | .unknownVariable name => "unknown variable '" ++ name.str ++ "'"
  | .alreadySet name => "variable '" ++ name.str ++ "' is already set"
  | .escapeRequired name => "variable '" ++ name.str ++ "' needs an escape type"
  | .unknownTemplate name => "unknown nested template '" ++ name.str ++ "'"
  | .alreadyPopulated name => "nested template '" ++ name.str ++ "' is already populated"
  | .repetitionMismatch name expected actual =>
    "nested template '" ++ name.str ++ "' shares its template with a binding of " ++
      toString expected ++ " repetitions, got " ++ toString actual
  | .unknownName name => "unknown name '" ++ name.str ++ "'"
  | .incomplete path => "session is incomplete: '" ++ path.str ++ "' is not resolved"

/-- Why values could not be bound. -/
inductive BindError where
  | session (e : SessionError)
  | escape (e : EscapeError)
  | access (e : AccessError)
  deriving DecidableEq, Repr

def BindError.message : BindError → String
  | .session e => e.message
  | .escape e => e.message
  | .access e => e.message

namespace State

/-! ## Variables -/

/-- The fragments escaped one by one and put together. -/
def escapeAll (escaper : Escaper) (kind : EscapeKind) (fragments : List Text) :
    Except BindError Text :=
  match fragments.mapM (escaper kind) with
  | .ok ts => .ok ts.flatten
  | .error e => .error (.escape e)

/-- The text of one occurrence of a variable. -/
def fill (escaper : Escaper) (kind : EscapeKind) (fragments : List Text) (t : Template)
    (name : Text) (i : Nat) : Except BindError (Nat × Text) :=
  let kind := ((t.parts[i]?.map Part.escape).getD .unspecified).or kind
  if kind.isSpecified then (escapeAll escaper kind fragments).map fun text => (i, text)
  else .error (.session (.escapeRequired name))

/-- Sets a variable from fragments of text. -/
def setVariable (escaper : Escaper) (name : Text) (fragments : List Text) (kind : EscapeKind)
    (s : State) : Except BindError State :=
  if !s.template.hasVariable name then .error (.session (.unknownVariable name))
  else if s.isResolved name then .error (.session (.alreadySet name))
  else
    ((s.template.positions name).mapM (fill escaper kind fragments s.template name)).map
      fun filled =>
        { s with
          slots := filled.foldl (fun slots (i, text) => slots.set i (some text)) s.slots
          resolved := s.resolved ++ [name] }

/-! ## Nested templates -/

/-- Binds a nested template to items, where `grow` makes the state of one repetition. -/
def populateWith {σ : Type} (n : Nested) (grow : σ → Except BindError State) (items : List σ)
    (names? : Option (List Text)) (s : State) : Except BindError State :=
  if s.isResolved n.name then .error (.session (.alreadyPopulated n.name))
  else
    match (Table.get? s.repetitions n.template.id).filter (· ≠ items.length) with
    | some expected => .error (.session (.repetitionMismatch n.name expected items.length))
    | none =>
      match (names?.getD []).find? fun name => !n.template.names.contains name with
      | some name => .error (.session (.unknownName name))
      | none =>
        (items.mapM grow).map fun states =>
          { s with
            children := Table.set s.children n.name states
            resolved := s.resolved ++ [n.name]
            repetitions := Table.set s.repetitions n.template.id items.length }

/-! ## Seeding -/

/-- The items that a value gives a nested template; `none` if the value is absent. -/
def itemsFor {σ : Type} (name : Text) (item : σ) : Value σ → Except AccessError (Option (List σ))
  | .items xs => .ok (some xs)
  | .bool true => .ok (some [item])
  | .bool false | .null => .ok (some [])
  | .absent => .ok none
  | v => .error (.mismatch name .items v.kind)

/-- The fragments that a value gives a variable; `none` if the value is absent. -/
def fragmentsFor {σ : Type} (name : Text) (v : Value σ) :
    Except AccessError (Option (List Text)) :=
  match v.toFragments?, v.kind with
  | some ts, _ => .ok (some ts)
  | none, .absent => .ok none
  | none, kind => .error (.mismatch name .scalar kind)

/-- Binds one name to what an item has for it, where `grow` makes the state of one repetition. -/
def bindName {σ : Type} (accessor : Accessor σ) (escaper : Escaper) (kind : EscapeKind)
    (t : Template) (item : σ)
    (grow : (n : Nested) → (∃ name, t.nested? name = some n) → σ → Except BindError State)
    (s : State) (name : Text) : Except BindError State := do
  let v ← (accessor item name).mapError .access
  if t.hasVariable name then
    match ← (fragmentsFor name v).mapError .access with
    | some fragments => s.setVariable escaper name fragments kind
    | none => return s
  else
    match h : t.nested? name with
    | some n =>
      match ← (itemsFor name item v).mapError .access with
      | some items => s.populateWith n (grow n ⟨name, h⟩) items none
      | none => return s
    | none => throw (.session (.unknownName name))

/-- Binds the names that are not resolved yet, up to the first that fails. -/
def bindNames (bind : State → Text → Except BindError State) :
    State → List Text → State × Except BindError Unit
  | s, [] => (s, .ok ())
  | s, name :: rest =>
    if s.isResolved name then bindNames bind s rest
    else match bind s name with
      | .ok s => bindNames bind s rest
      | .error e => (s, .error e)

/-- A new state seeded from an item; over all names of the template unless some are given. -/
def grow {σ : Type} (accessor : Accessor σ) (escaper : Escaper) (kind : EscapeKind)
    (t : Template) (names? : Option (List Text)) (item : σ) : Except BindError State :=
  let bind := bindName accessor escaper kind t item fun n _ x =>
    grow accessor escaper kind n.template none x
  match bindNames bind (.new t) (names?.getD t.names) with
  | (s, .ok ()) => .ok s
  | (_, .error e) => .error e
termination_by sizeOf t
decreasing_by
  rename_i h
  obtain ⟨_, h⟩ := h
  exact Template.sizeOf_lt_of_nested? h

/-- Seeds a state from an item, over the given names or all of them. -/
def seed {σ : Type} (accessor : Accessor σ) (escaper : Escaper) (kind : EscapeKind)
    (names? : Option (List Text)) (item : σ) (s : State) : State × Except BindError Unit :=
  let bind := bindName accessor escaper kind s.template item fun n _ x =>
    grow accessor escaper kind n.template none x
  bindNames bind s (names?.getD s.template.names)

/-- Binds a nested template to items, each repetition seeded from its item. -/
def populate {σ : Type} (accessor : Accessor σ) (escaper : Escaper) (kind : EscapeKind)
    (name : Text) (items : List σ) (names? : Option (List Text)) (s : State) :
    Except BindError State :=
  match s.template.nested? name with
  | none => .error (.session (.unknownTemplate name))
  | some n => s.populateWith n (grow accessor escaper kind n.template names?) items names?

/-- The states of a nested template, which must be one. -/
def nestedStates (s : State) (name : Text) : Except BindError (List State) :=
  if s.template.hasNested name then .ok (s.childrenOf name)
  else .error (.session (.unknownTemplate name))

end State

end Stencil
