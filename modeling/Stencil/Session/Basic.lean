import Stencil.Json.Keyed
import Stencil.Session.Binding
import Stencil.Session.Rendering

/-!
# Sessions

A session is one render of one template: a state that is filled step by step, the escaper for all
its values, and the kind of escaping where none is named. It is rendered once every name on every
level is resolved.
-/

namespace Stencil

/-- One render of one template. -/
structure Session where
  state : State
  escaper : Escaper
  kind : EscapeKind

namespace Session

/-- A session with the standard escaper and HTML as the kind of escaping. -/
def new (t : Template) : Session := ⟨.new t, standardEscaper, .html⟩

def withEscaper (s : Session) (escaper : Escaper) : Session := { s with escaper }

def withKind (s : Session) (kind : EscapeKind) : Session := { s with kind }

/-- A change of one level: it keeps its state when it fails. -/
def keep (f : State → Except BindError State) (s : State) : State × Except BindError Unit :=
  match f s with
  | .ok s => (s, .ok ())
  | .error e => (s, .error e)

/-- Changes the level at a scope. -/
def editAt {α : Type} (s : Session) (scope : State.Scope) (f : State → State × α) :
    Session × Except State.ScopeError α :=
  let (state, r) := s.state.editAt scope f
  ({ s with state }, r)

/-- Changes the root. -/
def edit (s : Session) (f : State → State × Except BindError Unit) :
    Session × Except BindError Unit :=
  let (state, r) := f s.state
  ({ s with state }, r)

/-- The change that sets a variable from fragments. -/
def setVariable (s : Session) (name : Text) (fragments : List Text) (kind : EscapeKind) :
    State → State × Except BindError Unit :=
  keep (State.setVariable s.escaper name fragments kind)

/-- The change that sets a variable to one value, escaped in the session's kind. -/
def set (s : Session) (name value : Text) : State → State × Except BindError Unit :=
  s.setVariable name [value] s.kind

/-- The change that binds a nested template to items. -/
def populate {σ : Type} (s : Session) (accessor : Accessor σ) (name : Text) (items : List σ)
    (kind : EscapeKind) (names? : Option (List Text)) : State → State × Except BindError Unit :=
  keep (State.populate accessor s.escaper kind name items names?)

/-- The change that seeds a level from an item. -/
def seed {σ : Type} (s : Session) (accessor : Accessor σ) (item : σ) (kind : EscapeKind)
    (names? : Option (List Text)) : State → State × Except BindError Unit :=
  State.seed accessor s.escaper kind names? item

/-- The name under which data for the root is reported. -/
def rootName : Text := "<root>".toList

/-- Seeds the root from data by way of JSON. -/
def seedData (s : Session) (data : Datum) : Session × Except BindError Unit :=
  match data.toJson rootName with
  | .ok j => s.edit (s.seed Json.Node.accessor (Json.Node.root j) s.kind none)
  | .error e => (s, .error (.access e))

/-- Binds a nested template of the root to data by way of JSON. All items are converted before
anything is bound. -/
def populateData (s : Session) (name : Text) (items : List Datum) :
    Session × Except BindError Unit :=
  match items.mapM (Datum.toJson name) with
  | .ok js => s.edit (s.populate Json.Node.accessor name (js.map Json.Node.root) s.kind none)
  | .error e => (s, .error (.access e))

/-- The text of the session, if every name is resolved. -/
def render (s : Session) : Except BindError Text :=
  match s.state.firstUnresolved? with
  | some path => .error (.session (.incomplete path))
  | none => .ok s.state.render

end Session

end Stencil
