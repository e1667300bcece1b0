import Stencil.Text.Basic

/-!
# Identities of sources

A source is known by the store it comes from and its path there, and by that pair its template is
kept in the cache and told from others.
-/

namespace Stencil

/-- Where a template's source is kept. -/
structure SourceId where
  origin : Text
  path : Text
  deriving DecidableEq, Repr

/-- The identity in messages. -/
def SourceId.text (id : SourceId) : Text := id.origin ++ ':' :: id.path

end Stencil
