import Stencil.Table
import Stencil.Template.Basic

/-!
# Indices

What a template is looked up by: its names in order, where each variable stands, and where each
nested template stands.

**One pass** (`Index.ofParts`). The parts of a level are entered one after another. A variable may
come again; it is a new name if no position of it was entered yet. The name of a nested template is
entered as a new one without a look at the others, since levels are parsed with names apart.
-/

namespace Stencil

/-- Names in the order in which they were entered, and the positions of the parts they belong to. -/
structure Index where
  names : List Text
  vars : Table Text (List Nat)
  nested : Table Text Nat

namespace Index

def empty : Index := ⟨[], [], []⟩

/-- Enters the part at a position. -/
def add (index : Index) (pos : Nat) : Part → Index
  | .text _ => index
  | .var name _ _ =>
    let positions := (index.vars.get? name).getD []
    { index with
      names := if positions.isEmpty then index.names ++ [name] else index.names
      vars := index.vars.set name (positions ++ [pos]) }
  | .nested name _ _ _ =>
    { index with names := index.names ++ [name], nested := index.nested.set name pos }

/-- Enters parts, of which the first stands at `pos`. -/
def addAll (index : Index) (pos : Nat) : List Part → Index
  | [] => index
  | p :: ps => (index.add pos p).addAll (pos + 1) ps

/-- The index of a level. -/
def ofParts (parts : List Part) : Index := empty.addAll 0 parts

def hasVariable (index : Index) (name : Text) : Bool := index.vars.has name

def hasNested (index : Index) (name : Text) : Bool := index.nested.has name

/-- The positions of a variable, if there is one of that name. -/
def positions? (index : Index) (name : Text) : Option (List Nat) := index.vars.get? name

/-- The position of a nested template, if there is one of that name. -/
def nestedPosition? (index : Index) (name : Text) : Option Nat := index.nested.get? name

def variableNames (index : Index) : List Text := index.names.filter index.hasVariable

def nestedNames (index : Index) : List Text := index.names.filter index.hasNested

end Index

/-- The index of a template. -/
def Template.index (t : Template) : Index := .ofParts t.parts

end Stencil
