import Stencil.Number

/-!
# Values pulled out of the caller's data

**Values** (`Value σ`). What an item of the caller's data of type `σ` answers when it is asked
for a name: a scalar, a list of items of the same type, an explicit null, or nothing at all.

**Accessors** (`Accessor σ`). The way to ask. An accessor may fail; one that is made of the
fields of a type (`byField`) or of a function (`ofFunction`) never does.

**Sameness** (`Value.same`). Items are compared by identity, which the caller's type provides;
all else is compared by content.
-/

namespace Stencil

universe u

/-- The text of a truth value. -/
def boolText (b : Bool) : Text := if b then ['t', 'r', 'u', 'e'] else ['f', 'a', 'l', 's', 'e']

/-- What kind of value an accessor gave. -/
inductive Kind where
  | text
  | fragments
  | number
  | bool
  | items
  | null
  | absent
  deriving DecidableEq, Repr

namespace Kind

def name : Kind → String
  | .text => "text"
  | .fragments => "fragments"
  | .number => "number"
  | .bool => "bool"
  | .items => "items"
  | .null => "null"
  | .absent => "absent"

/-- Values of this kind can fill a variable. -/
def isScalar : Kind → Bool
  | .items | .absent => false
  | _ => true

end Kind

/-- The value of a name in an item of type `σ`. -/
inductive Value (σ : Type u) where
  | text (t : Text)
  | fragments (ts : List Text)
  | number (n : Number)
  | bool (b : Bool)
  | items (xs : List σ)
  | null
  | absent

namespace Value

variable {σ : Type u}

def kind : Value σ → Kind
  | .text _ => .text
  | .fragments _ => .fragments
  | .number _ => .number
  | .bool _ => .bool
  | .items _ => .items
  | .null => .null
  | .absent => .absent

/-- The texts that a scalar puts into a variable, each to be escaped on its own. -/
def toFragments? : Value σ → Option (List Text)
  | .text t => some [t]
  | .fragments ts => some ts
  | .number n => some [n.text]
  | .bool b => some [boolText b]
  | .null => some []
  | .items _ | .absent => none

def text? : Value σ → Option Text
  | .text t => some t
  | _ => none

def items? : Value σ → Option (List σ)
  | .items xs => some xs
  | _ => none

/-- Sameness of values, given the identity of items. -/
def same (identical : σ → σ → Bool) : Value σ → Value σ → Bool
  | .text a, .text b => a == b
  | .fragments a, .fragments b => a == b
  | .number a, .number b => a.same b
  | .bool a, .bool b => a == b
  | .items xs, .items ys => xs.length == ys.length && (xs.zip ys).all fun (x, y) => identical x y
  | .null, .null => true
  | .absent, .absent => true
  | _, _ => false

theorem toFragments?_isSome (v : Value σ) : v.toFragments?.isSome = v.kind.isScalar := by
  cases v <;> rfl

end Value

/-! ## Accessors -/

/-- What a name needs: a scalar for a variable, items for a nested template. -/
inductive Shape where
  | scalar
  | items
  deriving DecidableEq, Repr

def Shape.name : Shape → String
  | .scalar => "scalar"
  | .items => "items"

/-- Why a value cannot be had, or cannot be used. -/
inductive AccessError where
  | mismatch (name : Text) (expected : Shape) (actual : Kind)
  | failed (name message : Text)
  deriving DecidableEq, Repr

def AccessError.message : AccessError → String
  | .mismatch name expected actual =>
    "value for '" ++ name.str ++ "' has the wrong shape: expected " ++ expected.name ++
      ", got " ++ actual.name
  | .failed name message => "failed to access '" ++ name.str ++ "': " ++ message.str

/-- Gives the value of a name in an item. -/
abbrev Accessor (σ : Type u) := σ → Text → Except AccessError (Value σ)

/-- A type whose values have fields of their own. -/
class Accessible (σ : Type u) where
  field : σ → Text → Value σ

namespace Accessor

variable {σ : Type u}

/-- The accessor that asks a function. -/
def ofFunction (f : σ → Text → Value σ) : Accessor σ := fun x name => .ok (f x name)

/-- The accessor that reads fields. -/
def byField [Accessible σ] : Accessor σ := ofFunction Accessible.field

end Accessor

end Stencil
