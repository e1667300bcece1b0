import Stencil.Source.Id
import Stencil.Text.Utf8

/-!
# Resolvers

**A resolver** (`Resolver`) turns the path of an include into the identity of a source, and an
identity into its bytes. Both are functions: a resolver shows its sources as they are at one
moment. Its `reach` bounds how many different sources can include each other in a chain.
-/

namespace Stencil

/-- Why a file could not be used. -/
inductive FileFault where
  | missing
  | notADirectory
  | isADirectory
  | notText
  deriving DecidableEq, Repr

/-- Why a source could not be had. -/
inductive ResolveError where
  | notFound (path : Text)
  | invalidUtf8 (origin : Text)
  | notAvailable (origin : Text)
  | fault (path : Text) (kind : FileFault)
  deriving DecidableEq, Repr

/-- The wording of a failure; that of a file fault is left to the system. -/
def ResolveError.message : ResolveError → String
  | .notFound path => "template '" ++ path.str ++ "' not found"
  | .invalidUtf8 origin => "template '" ++ origin.str ++ "' is not valid UTF-8"
  | .notAvailable origin => "template '" ++ origin.str ++ "' is not available"
  | .fault path _ => "cannot use '" ++ path.str ++ "'"

/-- Finds and reads the sources of templates. -/
structure Resolver where
  locate : Text → Except ResolveError (Option SourceId)
  read : SourceId → Except ResolveError Bytes
  reach : Nat

namespace Resolver

/-- The resolver that knows no source. -/
def none : Resolver where
  locate := fun _ => .ok Option.none
  read := fun id => .error (.notAvailable id.text)
  reach := 0

/-- Locates a path and reads what is there. -/
def resolve (r : Resolver) (path : Text) : Except ResolveError (Option (SourceId × Bytes)) := do
  match ← r.locate path with
  | some id => return some (id, ← r.read id)
  | Option.none => return Option.none

end Resolver

end Stencil
