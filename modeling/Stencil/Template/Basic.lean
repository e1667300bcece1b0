import Stencil.Escape
import Stencil.Source.Id

/-!
# Templates

**Parts.** A template is a list of parts: literal text, a variable, or a nested template. A
nested template keeps the text of its own tags, so that the source can be put together again.

**Stamps.** Every parsed template has a serial number of its own, and one that was loaded has the
identity of its source. The first tells instances apart, the second templates: two templates are
the same if they come from the same source, and a template without a source is only the same as
itself.

**Names** (`Template.names`). The names of a level in the order of their first occurrence. A
variable may occur several times, a nested template once.

**Measure.** `sizeOf_lt_of_nested?` says that a nested template is smaller than the one it is in,
by which everything that descends into templates ends.
-/

namespace Stencil

/-- How a nested template came into its template. -/
inductive Form where
  /-- Written between two tags. -/
  | inline (opener closer : Text)
  /-- Named by a tag, by its path. -/
  | included (path raw : Text)
  deriving DecidableEq, Repr

/-- What a template is told from others by. -/
structure Stamp where
  serial : Nat
  source : Option SourceId
  deriving DecidableEq, Repr

/-- Identity of a template. -/
inductive TemplateId where
  | anonymous (serial : Nat)
  | source (id : SourceId)
  deriving DecidableEq, Repr

namespace Stamp

def id (s : Stamp) : TemplateId := s.source.elim (.anonymous s.serial) .source

/-- Where the template comes from, in messages. -/
def origin (s : Stamp) : Text :=
  s.source.elim ['<', 's', 't', 'r', 'i', 'n', 'g', '>'] SourceId.text

def isAnonymous (s : Stamp) : Bool := s.source.isNone

end Stamp

/-- A part of a template. -/
inductive Part where
  | text (content : Text)
  | var (name : Text) (escape : EscapeKind) (raw : Text)
  | nested (name : Text) (form : Form) (stamp : Stamp) (body : List Part)

structure Template where
  stamp : Stamp
  parts : List Part

/-- A nested template together with its name and form. -/
structure Nested where
  name : Text
  form : Form
  template : Template

namespace Part

/-- The name that a part binds. -/
def name? : Part → Option Text
  | .text _ => none
  | .var name _ _ => some name
  | .nested name _ _ _ => some name

def nested? : Part → Option Nested
  | .nested name form stamp body => some ⟨name, form, ⟨stamp, body⟩⟩
  | _ => none

/-- The part is a variable of that name. -/
def isVar (name : Text) : Part → Bool
  | .var n _ _ => n = name
  | _ => false

/-- The part is a nested template of that name. -/
def isNested (name : Text) : Part → Bool
  | .nested n _ _ _ => n = name
  | _ => false

/-- The escape kind written at a variable. -/
def escape : Part → EscapeKind
  | .var _ kind _ => kind
  | _ => .unspecified

end Part

/-- The elements of a list, each at its first occurrence only. -/
def firsts : List Text → List Text
  | [] => []
  | x :: xs => x :: (firsts xs).filter (· ≠ x)

theorem mem_firsts {x : Text} {xs : List Text} : x ∈ firsts xs ↔ x ∈ xs := by
  induction xs with
  | nil => simp [firsts]
  | cons y ys ih =>
    simp only [firsts, List.mem_cons, List.mem_filter, ih, decide_eq_true_eq]
    by_cases h : x = y <;> simp [h]

theorem nodup_firsts (xs : List Text) : (firsts xs).Nodup := by
  induction xs with
  | nil => exact List.nodup_nil
  | cons y ys ih =>
    refine List.nodup_cons.2 ⟨?_, List.Pairwise.filter _ ih⟩
    simp

namespace Template

def id (t : Template) : TemplateId := t.stamp.id

/-- The names of a level, in the order of their first occurrence. -/
def names (t : Template) : List Text := firsts (t.parts.filterMap Part.name?)

def hasVariable (t : Template) (name : Text) : Bool := t.parts.any (·.isVar name)

def hasNested (t : Template) (name : Text) : Bool := t.parts.any (·.isNested name)

/-- The positions of the parts that satisfy a condition, from `start` on. -/
def positionsFrom (p : Part → Bool) : Nat → List Part → List Nat
  | _, [] => []
  | i, x :: xs => if p x then i :: positionsFrom p (i + 1) xs else positionsFrom p (i + 1) xs

/-- The positions of a variable, ascending. -/
def positions (t : Template) (name : Text) : List Nat := positionsFrom (·.isVar name) 0 t.parts

/-- The position of a nested template. -/
def nestedPosition? (t : Template) (name : Text) : Option Nat :=
  t.parts.findIdx? (·.isNested name)

/-- The nested template of that name. -/
def nested? (t : Template) (name : Text) : Option Nested :=
  (t.parts.find? (·.isNested name)).bind Part.nested?

/-- The names of variables, in order. -/
def variableNames (t : Template) : List Text := t.names.filter t.hasVariable

/-- The names of nested templates, in order. -/
def nestedNames (t : Template) : List Text := t.names.filter t.hasNested

theorem mem_names {t : Template} {name : Text} :
    name ∈ t.names ↔ ∃ p ∈ t.parts, p.name? = some name := by
  simp [names, mem_firsts]

theorem nodup_names (t : Template) : t.names.Nodup := nodup_firsts _

theorem sizeOf_lt_of_mem {t : Template} {name : Text} {form : Form} {stamp : Stamp}
    {body : List Part} (h : Part.nested name form stamp body ∈ t.parts) :
    sizeOf (Template.mk stamp body) < sizeOf t := by
  have h1 := List.sizeOf_lt_of_mem h
  obtain ⟨s, ps⟩ := t
  simp only [Template.mk.sizeOf_spec, Part.nested.sizeOf_spec] at *
  omega

/-- **A nested template is smaller than the one it is in.** -/
theorem sizeOf_lt_of_nested? {t : Template} {name : Text} {n : Nested}
    (h : t.nested? name = some n) : sizeOf n.template < sizeOf t := by
  simp only [nested?, Option.bind_eq_some_iff] at h
  obtain ⟨p, hp, hn⟩ := h
  cases p with
  | text => simp [Part.nested?] at hn
  | var => simp [Part.nested?] at hn
  | nested name form stamp body =>
    simp only [Part.nested?, Option.some.injEq] at hn
    subst hn
    exact sizeOf_lt_of_mem (List.mem_of_find?_eq_some hp)

theorem hasNested_iff {t : Template} {name : Text} :
    t.hasNested name = true ↔ (t.nested? name).isSome = true := by
  simp only [hasNested, nested?, List.any_eq_true]
  constructor
  · rintro ⟨p, hp, hn⟩
    obtain ⟨q, hq⟩ := Option.isSome_iff_exists.1 (List.find?_isSome.2 ⟨p, hp, hn⟩)
    have hqn := List.find?_some hq
    rw [hq, Option.bind_some]
    cases q <;> simp_all [Part.isNested, Part.nested?]
  · intro h
    cases hq : t.parts.find? (·.isNested name) with
    | none => simp [hq] at h
    | some q => exact ⟨q, List.mem_of_find?_eq_some hq, List.find?_some hq⟩

end Template

end Stencil
