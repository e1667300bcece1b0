import Stencil.Markup.Ditch
import Stencil.Markup.Position
import Stencil.Source.Resolver

/-!
# What can be wrong with a template

**Faults** (`Fault`). The ways in which a source can be malformed.

**Errors** (`ParseError`). A fault, the source it is in, and the position there. Positions are
those of the source as written: `Draft.position` undoes the removal of ditch blocks.

**Loading** (`LoadError`). A template can also fail because its source, or one that it includes,
cannot be had.
-/

namespace Stencil

inductive Fault where
  | ditchNotTerminated
  | templateNotTerminated (name : Text)
  | danglingEnd (name : Text)
  | invalidIncludePath (path : Text)
  | emptyIncludePath
  | includeCycle (chain : List Text)
  | badEscapeKind (token : Text)
  | emptyVariableName
  | emptyTemplateName
  | duplicateName (name : Text)
  | unknownTag (keyword : Text)
  | malformedTag
  deriving DecidableEq, Repr

def Fault.message : Fault → String
  | .ditchNotTerminated => "ditch block is not terminated"
  | .templateNotTerminated name => "template '" ++ name.str ++ "' is not terminated"
  | .danglingEnd name => "end of template '" ++ name.str ++ "' has no matching begin"
  | .invalidIncludePath path => "include path '" ++ path.str ++ "' cannot be resolved"
  | .emptyIncludePath => "include path is empty"
  | .includeCycle chain => "include cycle: " ++ " -> ".intercalate (chain.map Text.str)
  | .badEscapeKind token => "unknown escape type '" ++ token.str ++ "'"
  | .emptyVariableName => "variable name is empty"
  | .emptyTemplateName => "template name is empty"
  | .duplicateName name => "name '" ++ name.str ++ "' is already used at this level"
  | .unknownTag keyword => "unknown tag keyword '" ++ keyword.str ++ "'"
  | .malformedTag => "malformed tag"

/-- A fault and where it is. -/
structure ParseError where
  fault : Fault
  origin : Text
  position : Position
  deriving DecidableEq, Repr

def ParseError.message (e : ParseError) : String :=
  e.fault.message ++ " at " ++ e.origin.str ++ ":" ++ toString e.position.line ++ ":" ++
    toString e.position.column

/-- Why a template could not be had. -/
inductive LoadError where
  | parse (e : ParseError)
  | resolve (e : ResolveError)
  /-- The includes go deeper than the resolver reaches. -/
  | endless
  deriving DecidableEq, Repr

def LoadError.message : LoadError → String
  | .parse e => e.message
  | .resolve e => e.message
  | .endless => "includes do not end"

/-! ## Drafts -/

/-- A source under the parser: as written, and without its ditch blocks. -/
structure Draft where
  origin : Text
  source : Text
  text : Text
  cuts : List Ditch.Cut

namespace Draft

/-- Cuts the ditch blocks out of a source. -/
def ofSource (ditch origin source : Text) : Except LoadError Draft :=
  match Ditch.strip ditch source with
  | .ok (text, cuts) => .ok ⟨origin, source, text, cuts⟩
  | .error offset =>
    .error (.parse ⟨.ditchNotTerminated, origin, Position.of source offset⟩)

/-- The position in the source as written. -/
def position (d : Draft) (pos : Nat) : Position := Position.of d.source (Ditch.written d.cuts pos)

/-- A fault at a position in the text without ditch blocks. -/
def error (d : Draft) (fault : Fault) (pos : Nat) : LoadError :=
  .parse ⟨fault, d.origin, d.position pos⟩

end Draft

end Stencil
