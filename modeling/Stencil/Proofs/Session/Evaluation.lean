import Stencil.Session.Basic
import Stencil.Proofs.Template.Names

/-!
# The meaning of a template

**Readings** (`Reading`). What the names of a template stand for in an item: texts for a variable,
items for a nested template. An accessor is read as one (`Accessor.reading`), and so are JSON values
(`Json.reading`), by their own contents and without places.

**Evaluation** (`Template.evaluate`). The text of a template for an item, in one pass over its
parts: a text as it stands, a variable by its texts, each escaped, a nested template by its own text
for each of its items.

**Fitting** (`Fits`). What an item must have for that: something for every name, texts that can be
escaped, and as many items for templates that come from one source. The items for nested templates
must fit those in turn.

**Readings of the same** (`Reading.Maps`). Where items are read alike they mean the same.
-/

namespace Stencil

/-- What names stand for in an item of type `σ`. -/
structure Reading (σ : Type) where
  /-- The texts of a variable. -/
  texts : σ → Text → Option (List Text)
  /-- The items of a nested template. -/
  items : σ → Text → Option (List σ)

/-- The values that an accessor gives. -/
def Accessor.reading {σ : Type} (accessor : Accessor σ) : Reading σ where
  texts := fun item name =>
    match accessor item name with
    | .ok (.text t) => some [t]
    | .ok (.fragments ts) => some ts
    | .ok (.number n) => some [n.text]
    | .ok (.bool true) => some ["true".toList]
    | .ok (.bool false) => some ["false".toList]
    | .ok .null => some []
    | _ => none
  items := fun item name =>
    match accessor item name with
    | .ok (.items xs) => some xs
    | .ok (.bool true) => some [item]
    | .ok (.bool false) => some []
    | .ok .null => some []
    | _ => none

namespace Json

/-- One step into a value: by key or by position. -/
def at? : Json → Text → Option Json
  | .object fields, key => Table.get? fields key
  | .array xs, position => (Text.readUpTo? (UInt64.size - 1) position).bind fun i => xs[i]?
  | _, _ => none

/-- The value at a dotted path. -/
def lookup (j : Json) (path : Text) : Option Json := (path.split '.').foldlM at? j

/-- The values of a document. An object is one item, and `true` stands for the current one. -/
def reading : Reading Json where
  texts := fun j name =>
    match j.lookup name with
    | some (.text t) => some [t]
    | some (.number n) => some [n.text]
    | some (.bool true) => some ["true".toList]
    | some (.bool false) => some ["false".toList]
    | some .null => some []
    | _ => none
  items := fun j name =>
    match j.lookup name with
    | some (.array xs) => some xs
    | some (.object fields) => some [.object fields]
    | some (.bool true) => some [j]
    | some (.bool false) => some []
    | some .null => some []
    | _ => none

end Json

/-! ## Escaping -/

/-- The texts can be escaped in that kind. -/
def Escaper.Takes (escaper : Escaper) (kind : EscapeKind) (ts : List Text) : Prop :=
  kind.isSpecified = true ∧ ∀ t ∈ ts, ∃ e, escaper kind t = .ok e

/-- The texts escaped one by one and put together. -/
def Escaper.concat (escaper : Escaper) (kind : EscapeKind) (ts : List Text) : Text :=
  ts.flatMap fun t => (escaper kind t).toOption.getD []

/-! ## Evaluation -/

section Evaluation

variable {σ τ : Type} (r : Reading σ) (escaper : Escaper) (kind : EscapeKind)

mutual

/-- The text of a part for an item. Texts are escaped in the kind that the variable names, or in the
given one. -/
def Part.evaluate (item : σ) : Part → Text
  | .text content => content
  | .var name own _ => escaper.concat (own.or kind) ((r.texts item name).getD [])
  | .nested name _ _ body =>
    ((r.items item name).getD []).flatMap fun x => Part.evaluateAll x body

/-- The text of a list of parts for an item. -/
def Part.evaluateAll (item : σ) : List Part → Text
  | [] => []
  | p :: ps => Part.evaluate item p ++ Part.evaluateAll item ps

end

/-- The text of a template for an item. -/
def Template.evaluate (item : σ) (t : Template) : Text :=
  Part.evaluateAll r escaper kind item t.parts

theorem Part.evaluateAll_eq_flatMap (item : σ) (ps : List Part) :
    Part.evaluateAll r escaper kind item ps = ps.flatMap (Part.evaluate r escaper kind item) := by
  induction ps with
  | nil => rw [Part.evaluateAll, List.flatMap_nil]
  | cons p ps ih => rw [Part.evaluateAll, ih, List.flatMap_cons]

/-! ## Fitting -/

/-- The item has what the names of one level need. -/
structure FitsLevel (item : σ) (t : Template) : Prop where
  texts : ∀ name own raw, .var name own raw ∈ t.parts →
    ∃ ts, r.texts item name = some ts ∧ escaper.Takes (own.or kind) ts
  items : ∀ n ∈ t.nestedList, ∃ xs, r.items item n.name = some xs
  /-- Templates that come from one source have as many items. -/
  counts : ∀ n ∈ t.nestedList, ∀ m ∈ t.nestedList, ∀ id,
    n.template.stamp.source = some id → m.template.stamp.source = some id →
    ∀ xs ys, r.items item n.name = some xs → r.items item m.name = some ys → xs.length = ys.length

/-- The item has what the names of the template need, on every level. -/
inductive Fits : σ → Template → Prop
  | mk {item : σ} {t : Template} (level : FitsLevel r escaper kind item t)
      (inside : ∀ n ∈ t.nestedList, ∀ xs, r.items item n.name = some xs →
        ∀ x ∈ xs, Fits x n.template) : Fits item t

variable {r escaper kind} {item : σ} {t : Template}

theorem Fits.level (h : Fits r escaper kind item t) : FitsLevel r escaper kind item t := by
  cases h
  assumption

theorem Fits.inside (h : Fits r escaper kind item t) : ∀ n ∈ t.nestedList, ∀ xs,
    r.items item n.name = some xs → ∀ x ∈ xs, Fits r escaper kind x n.template := by
  cases h
  assumption

/-! ## Readings of the same -/

/-- Items are read as their images are. -/
structure Reading.Maps (r : Reading σ) (s : Reading τ) (f : σ → τ) : Prop where
  texts : ∀ x name, s.texts (f x) name = r.texts x name
  items : ∀ x name, s.items (f x) name = (r.items x name).map (List.map f)

variable {s : Reading τ} {f : σ → τ}

mutual

theorem Part.evaluate_map (h : r.Maps s f) (item : σ) : ∀ p : Part,
    Part.evaluate s escaper kind (f item) p = Part.evaluate r escaper kind item p
  | .text content => by rw [Part.evaluate, Part.evaluate]
  | .var name own raw => by rw [Part.evaluate, Part.evaluate, h.texts]
  | .nested name form stamp body => by
    rw [Part.evaluate, Part.evaluate, h.items]
    cases r.items item name with
    | none => rfl
    | some xs =>
      show (xs.map f).flatMap _ = xs.flatMap _
      rw [List.flatMap_map]
      exact List.flatMap_congr fun x _ => Part.evaluateAll_map h x body

theorem Part.evaluateAll_map (h : r.Maps s f) (item : σ) : ∀ ps : List Part,
    Part.evaluateAll s escaper kind (f item) ps = Part.evaluateAll r escaper kind item ps
  | [] => by rw [Part.evaluateAll, Part.evaluateAll]
  | p :: ps => by
    rw [Part.evaluateAll, Part.evaluateAll, Part.evaluate_map h item p,
      Part.evaluateAll_map h item ps]

end

/-- The text for an item is that for its image. -/
theorem Template.evaluate_map (h : r.Maps s f) :
    t.evaluate s escaper kind (f item) = t.evaluate r escaper kind item :=
  Part.evaluateAll_map h item t.parts

end Evaluation

/-! ## Places in a document -/

namespace Json

/-- The first field of a key, found by its place. -/
theorem get?_eq_getElem?_findIdx? (fields : Table Text Json) (key : Text) :
    ((fields.findIdx? fun (k, _) => k = key).bind fun i => fields[i]?.map Prod.snd) =
      Table.get? fields key := by
  induction fields with
  | nil => rfl
  | cons e fields ih =>
    obtain ⟨k, v⟩ := e
    rw [List.findIdx?_cons, Table.get?, ← ih]
    by_cases hk : k = key
    · simp [hk]
    · simp only [hk, decide_false, if_false, Bool.false_eq_true, Option.bind_map]
      rfl

namespace Node

/-- A step from a node goes where a step from its value goes. -/
theorem child?_value (n : Node) (segment : Text) :
    (n.child? segment).map value = n.value.at? segment := by
  unfold child? at?
  cases n.value with
  | object fields =>
    dsimp only
    rw [← get?_eq_getElem?_findIdx?, Option.map_bind]
    refine Option.bind_congr fun i _ => ?_
    rw [Function.comp_apply, Option.map_map]
    rfl
  | array xs =>
    dsimp only
    rw [Option.map_bind]
    refine Option.bind_congr fun i _ => ?_
    rw [Function.comp_apply, Option.map_map]
    exact Option.map_id_apply
  | null | bool | number | text => rfl

theorem resolve_value (n : Node) (name : Text) :
    (n.resolve name).map value = n.value.lookup name := by
  unfold resolve follow lookup
  induction name.split '.' generalizing n with
  | nil => rfl
  | cons segment rest ih =>
    rw [List.foldlM_cons, List.foldlM_cons, ← child?_value]
    cases n.child? segment with
    | none => rfl
    | some c => exact ih c

theorem map_value_elements (n : Node) (xs : List Json) : (n.elements xs).map value = xs := by
  unfold elements
  rw [List.map_map]
  exact List.zipIdx_map_fst 0 xs

/-- Nodes are read as their values are. -/
theorem maps_value : accessor.reading.Maps Json.reading value where
  texts := by
    intro n name
    unfold Json.reading Accessor.reading accessor
    dsimp only
    rw [← resolve_value]
    cases n.resolve name with
    | none => rfl
    | some c =>
      obtain ⟨place, v⟩ := c
      cases v with
      | bool b => cases b <;> rfl
      | null | number | text | array | object => rfl
  items := by
    intro n name
    unfold Json.reading Accessor.reading accessor
    dsimp only
    rw [← resolve_value]
    cases n.resolve name with
    | none => rfl
    | some c =>
      obtain ⟨place, v⟩ := c
      cases v with
      | array xs =>
        exact congrArg some (map_value_elements ⟨place, .array xs⟩ xs).symm
      | bool b => cases b <;> rfl
      | null | number | text | object => rfl

end Node

end Json

end Stencil
