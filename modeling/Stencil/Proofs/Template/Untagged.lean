import Stencil.Template.Basic

/-!
# Templates without the text of their tags

**Without tags** (`Template.untagged`). A template keeps how its variables and nested templates were
written, to give its source back. Nothing else reads it: without it, a template has the same names
at the same positions, and the nested templates without the text of theirs.
-/

namespace Stencil

/-- The form without the text of tags. -/
def Form.untagged : Form → Form
  | .inline _ _ => .inline [] []
  | .included path _ => .included path []

mutual

/-- The part without the text of tags in it. -/
def Part.untagged : Part → Part
  | .text content => .text content
  | .var name escape _ => .var name escape []
  | .nested name form stamp body => .nested name form.untagged stamp (Part.allUntagged body)

/-- The parts without the text of tags in them. -/
def Part.allUntagged : List Part → List Part
  | [] => []
  | p :: ps => p.untagged :: Part.allUntagged ps

end

/-- The template without the text of tags in it. -/
def Template.untagged (t : Template) : Template := ⟨t.stamp, Part.allUntagged t.parts⟩

/-- The nested template without the text of tags. -/
def Nested.untagged (n : Nested) : Nested := ⟨n.name, n.form.untagged, n.template.untagged⟩

theorem Part.allUntagged_eq_map (ps : List Part) : allUntagged ps = ps.map untagged := by
  induction ps with
  | nil => rfl
  | cons p ps ih => rw [allUntagged, ih, List.map_cons]

namespace Part

variable (p : Part)

theorem name?_untagged : p.untagged.name? = p.name? := by
  cases p <;> rfl

theorem nested?_untagged : p.untagged.nested? = p.nested?.map Nested.untagged := by
  cases p <;> rfl

theorem isVar_untagged (name : Text) : p.untagged.isVar name = p.isVar name := by
  cases p <;> rfl

theorem isNested_untagged (name : Text) : p.untagged.isNested name = p.isNested name := by
  cases p <;> rfl

theorem escape_untagged : p.untagged.escape = p.escape := by
  cases p <;> rfl

end Part

namespace Template

variable (t : Template) (name : Text)

theorem parts_untagged : t.untagged.parts = t.parts.map Part.untagged :=
  Part.allUntagged_eq_map t.parts

@[simp] theorem names_untagged : t.untagged.names = t.names := by
  unfold names
  rw [parts_untagged, List.filterMap_map]
  exact congrArg (fun f => firsts (t.parts.filterMap f)) (funext fun p => p.name?_untagged)

@[simp] theorem hasVariable_untagged : t.untagged.hasVariable name = t.hasVariable name := by
  unfold hasVariable
  rw [parts_untagged, List.any_map]
  exact congrArg t.parts.any (funext fun p => p.isVar_untagged name)

@[simp] theorem hasNested_untagged : t.untagged.hasNested name = t.hasNested name := by
  unfold hasNested
  rw [parts_untagged, List.any_map]
  exact congrArg t.parts.any (funext fun p => p.isNested_untagged name)

@[simp] theorem positions_untagged : t.untagged.positions name = t.positions name := by
  have hfrom : ∀ (i : Nat) (ps : List Part), positionsFrom (·.isVar name) i (ps.map Part.untagged) =
      positionsFrom (·.isVar name) i ps := by
    intro i ps
    induction ps generalizing i with
    | nil => rfl
    | cons p ps ih => rw [List.map_cons, positionsFrom, positionsFrom, p.isVar_untagged, ih]
  unfold positions
  rw [parts_untagged, hfrom]

@[simp] theorem nested?_untagged :
    t.untagged.nested? name = (t.nested? name).map Nested.untagged := by
  unfold nested?
  have hfind : (fun p : Part => p.isNested name) ∘ Part.untagged = fun p => p.isNested name :=
    funext fun p => p.isNested_untagged name
  rw [parts_untagged, List.find?_map, hfind]
  cases t.parts.find? fun p => p.isNested name with
  | none => rfl
  | some p => exact p.nested?_untagged

/-- The escape kind that is written at a position. -/
theorem escape_untagged (i : Nat) :
    t.untagged.parts[i]?.map Part.escape = t.parts[i]?.map Part.escape := by
  rw [parts_untagged, List.getElem?_map, Option.map_map]
  exact congrArg (t.parts[i]?.map ·) (funext fun p => p.escape_untagged)

end Template

end Stencil
