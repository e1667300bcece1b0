import Stencil.Json.Basic

/-!
# Data that becomes JSON

A caller may hand over a JSON value, or a map whose keys are values themselves. Such a map
becomes an object: a text key stays, an integer, a truth value and a double become their text,
and no other key has a text.
-/

namespace Stencil

/-- Data that can be turned into JSON. -/
inductive Datum where
  | json (j : Json)
  | map (entries : List (Json × Json))

namespace Datum

/-- The text of a key, if it has one. -/
def keyText? : Json → Option Text
  | .text t => some t
  | .bool b => some (boolText b)
  | .number (.real x) => some x.keyText
  | .number n => some n.text
  | .null | .array _ | .object _ => none

/-- What is said of a key without a text. -/
def badKey : Text := "key must be a string".toList

/-- The data as JSON; `name` is what the data is for. -/
def toJson (name : Text) : Datum → Except AccessError Json
  | .json j => .ok j
  | .map entries =>
    match entries.mapM fun (k, v) => (keyText? k).map fun t => (t, v) with
    | some fields => .ok (Json.ofFields fields)
    | none => .error (.failed name badKey)

end Datum

end Stencil
