import Stencil.Data.Value
import Stencil.Table

/-!
# JSON values

**Objects** are lists of fields with different keys, in the order in which the keys first came;
`Json.ofFields` makes them so.

**Nodes** (`Json.Node`). A value together with its place in the document it was found in, so
that two equal values at different places are different items.

**Names.** A name is a path of segments between points. A segment is a key in an object and a
position in an array; `Node.resolve_append` says that paths can be followed in two steps.
-/

namespace Stencil

inductive Json where
  | null
  | bool (b : Bool)
  | number (n : Number)
  | text (t : Text)
  | array (xs : List Json)
  | object (fields : List (Text × Json))

namespace Json

/-- The object with the given fields; of a key that comes again, the last value counts. -/
def ofFields (fields : List (Text × Json)) : Json :=
  .object (fields.foldl (fun (acc : Table Text Json) (k, v) => acc.set k v) [])

/-! ## Places -/

/-- A value and the positions that lead to it from the top of its document. -/
structure Node where
  place : List Nat
  value : Json

namespace Node

/-- A whole document. -/
def root (j : Json) : Node := ⟨[], j⟩

def childAt (n : Node) (i : Nat) (j : Json) : Node := ⟨n.place ++ [i], j⟩

/-- The elements of an array found at this place. -/
def elements (n : Node) (xs : List Json) : List Node :=
  xs.zipIdx.map fun (x, i) => n.childAt i x

/-- One step: into an object by key, into an array by position. -/
def child? (n : Node) (segment : Text) : Option Node :=
  match n.value with
  | .object fields =>
    (fields.findIdx? fun (k, _) => k = segment).bind fun i =>
      fields[i]?.map fun (_, v) => n.childAt i v
  | .array xs =>
    (Text.readUpTo? (UInt64.size - 1) segment).bind fun i => xs[i]?.map (n.childAt i)
  | _ => none

/-- Follows a list of segments. -/
def follow (n : Node) (segments : List Text) : Option Node := segments.foldlM child? n

/-- The node that a dotted name leads to. -/
def resolve (n : Node) (name : Text) : Option Node := n.follow (name.split '.')

/-- A node as a value: an array gives its elements, an object itself as the only item. -/
def toValue (n : Node) : Value Node :=
  match n.value with
  | .null => .null
  | .bool b => .bool b
  | .number x => .number x
  | .text t => .text t
  | .array xs => .items (n.elements xs)
  | .object _ => .items [n]

/-- The accessor for JSON data. -/
def accessor : Accessor Node := fun n name => .ok ((n.resolve name).elim .absent toValue)

/-- The same place of the same document. -/
def identical (a b : Node) : Bool := a.place == b.place

theorem follow_append (n : Node) (a b : List Text) :
    n.follow (a ++ b) = (n.follow a).bind (·.follow b) := by
  simp [follow, List.foldlM_append]

/-- **Dotted names compose**: a longer path is followed through its shorter beginning. -/
theorem resolve_append (n : Node) (a b : Text) :
    n.resolve (a ++ '.' :: b) = (n.resolve a).bind (·.resolve b) := by
  simp only [resolve, Text.split_append, follow_append]

end Node

end Json

end Stencil
