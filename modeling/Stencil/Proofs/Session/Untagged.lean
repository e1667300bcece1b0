import Stencil.Proofs.Session.Bindings
import Stencil.Proofs.Template.Untagged

/-!
# Sessions do not read the text of tags

A session of a template without the text of its tags goes through the states of a session of the
template, each without that text (`State.untagged`).

**One level.** Setting a variable, populating a nested template and seeding a level commute with
`State.untagged`, with the same error where they fail. `grow_untagged` goes down the template, since
the levels of repetitions are grown from nested templates.

**Sessions** (`Session.perform_untagged`). So does every operation, and what is rendered in the end
is the same (`Session.render_run_untagged`).
-/

namespace Stencil

namespace State

mutual

/-- The state without the text of tags in its templates. -/
def untagged : State → State
  | ⟨template, slots, children, resolved, repetitions⟩ =>
    ⟨template.untagged, slots, tableUntagged children, resolved, repetitions⟩

/-- The states by name, without the text of tags in their templates. -/
def tableUntagged : List (Text × List State) → List (Text × List State)
  | [] => []
  | (name, states) :: rest => (name, allUntagged states) :: tableUntagged rest

/-- The states without the text of tags in their templates. -/
def allUntagged : List State → List State
  | [] => []
  | s :: rest => s.untagged :: allUntagged rest

end

theorem allUntagged_eq_map (states : List State) : allUntagged states = states.map untagged := by
  induction states with
  | nil => rfl
  | cons s rest ih => rw [allUntagged, ih, List.map_cons]

theorem tableUntagged_eq_map (table : List (Text × List State)) :
    tableUntagged table = table.map fun e => (e.1, e.2.map untagged) := by
  induction table with
  | nil => rfl
  | cons e rest ih =>
    obtain ⟨name, states⟩ := e
    rw [tableUntagged, ih, allUntagged_eq_map, List.map_cons]

section Records

variable (s : State) (name : Text)

@[simp] theorem template_untagged : s.untagged.template = s.template.untagged := by
  cases s
  rfl

@[simp] theorem slots_untagged : s.untagged.slots = s.slots := by
  cases s
  rfl

@[simp] theorem resolved_untagged : s.untagged.resolved = s.resolved := by
  cases s
  rfl

@[simp] theorem repetitions_untagged : s.untagged.repetitions = s.repetitions := by
  cases s
  rfl

theorem children_untagged :
    s.untagged.children = s.children.map fun e => (e.1, e.2.map untagged) := by
  cases s
  exact tableUntagged_eq_map _

@[simp] theorem slot_untagged (i : Nat) : s.untagged.slot i = s.slot i := by
  unfold slot
  rw [slots_untagged]

@[simp] theorem isResolved_untagged : s.untagged.isResolved name = s.isResolved name := by
  unfold isResolved
  rw [resolved_untagged]

@[simp] theorem childrenOf_untagged :
    s.untagged.childrenOf name = (s.childrenOf name).map untagged := by
  unfold childrenOf
  rw [children_untagged, Table.get?_map]
  cases Table.get? s.children name <;> rfl

theorem new_untagged (t : Template) : (State.new t).untagged = .new t.untagged := by
  unfold new
  rw [Template.parts_untagged, List.length_map]
  rfl

end Records

/-! ## One level -/

/-- What follows an answer is had of the same answer. -/
theorem bind_untagged {α : Type} {k l : α → Except BindError State} (r : Except BindError α)
    (h : ∀ a, l a = (k a).map untagged) : r >>= l = (r >>= k).map untagged := by
  cases r with
  | error e => rfl
  | ok a => exact h a

section Level

variable {σ : Type} {accessor : Accessor σ} {escaper : Escaper} {kind : EscapeKind}
  {names? : Option (List Text)}

theorem fill_untagged (fragments : List Text) (t : Template) (name : Text) (i : Nat) :
    fill escaper kind fragments t.untagged name i = fill escaper kind fragments t name i := by
  unfold fill
  rw [Template.escape_untagged]

theorem setVariable_untagged (name : Text) (fragments : List Text) (s : State) :
    setVariable escaper name fragments kind s.untagged =
      (setVariable escaper name fragments kind s).map untagged := by
  have hfill : fill escaper kind fragments s.template.untagged name =
      fill escaper kind fragments s.template name :=
    funext fun i => fill_untagged fragments s.template name i
  unfold setVariable
  rw [template_untagged, Template.hasVariable_untagged, isResolved_untagged,
    Template.positions_untagged, hfill]
  split
  · rfl
  split
  · rfl
  cases (s.template.positions name).mapM (fill escaper kind fragments s.template name) with
  | error e => rfl
  | ok filled =>
    cases s
    rfl

/-- Results of one view are had together. -/
theorem mapM_untagged {f g : σ → Except BindError State} (h : ∀ x, g x = (f x).map untagged)
    (xs : List σ) : xs.mapM g = (xs.mapM f).map (List.map untagged) := by
  induction xs with
  | nil => rfl
  | cons x xs ih =>
    rw [List.mapM_cons, List.mapM_cons, h, ih]
    cases f x with
    | error e => rfl
    | ok s => cases xs.mapM f <;> rfl

theorem populateWith_untagged {f g : σ → Except BindError State}
    (h : ∀ x, g x = (f x).map untagged) (n : Nested) (items : List σ) (s : State) :
    populateWith n.untagged g items names? s.untagged =
      (populateWith n f items names? s).map untagged := by
  have hname : n.untagged.name = n.name := rfl
  have hid : n.untagged.template.id = n.template.id := rfl
  have hnames : n.untagged.template.names = n.template.names := n.template.names_untagged
  unfold populateWith
  rw [hname, hid, hnames, isResolved_untagged, repetitions_untagged, mapM_untagged h]
  split
  · rfl
  split
  · rfl
  split
  · rfl
  cases items.mapM f with
  | error e => rfl
  | ok states =>
    have hset : Table.set s.untagged.children n.name (states.map untagged) =
        (Table.set s.children n.name states).map fun e => (e.1, e.2.map untagged) := by
      rw [children_untagged, Table.set_map]
    cases s
    show Except.ok (State.mk _ _ (Table.set _ _ _) _ _) = Except.ok (State.mk _ _ _ _ _)
    rw [hset, ← tableUntagged_eq_map]
    rfl

theorem bindName_untagged {t : Template} {item : σ}
    {f : (n : Nested) → (∃ name, t.nested? name = some n) → σ → Except BindError State}
    {g : (n : Nested) → (∃ name, t.untagged.nested? name = some n) → σ → Except BindError State}
    (h : ∀ n hn hn' x, g n.untagged hn' x = (f n hn x).map untagged) (s : State) (name : Text) :
    bindName accessor escaper kind t.untagged item g s.untagged name =
      (bindName accessor escaper kind t item f s name).map untagged := by
  have hvars : t.untagged.hasVariable name = t.hasVariable name := t.hasVariable_untagged name
  have hnested : t.untagged.nested? name = (t.nested? name).map Nested.untagged :=
    t.nested?_untagged name
  cases hv : t.hasVariable name with
  | true =>
    rw [bindName_of_variable hv, bindName_of_variable (hvars.trans hv)]
    refine bind_untagged _ fun v => bind_untagged _ fun fragments? => ?_
    cases fragments? with
    | none => rfl
    | some fragments => exact setVariable_untagged name fragments s
  | false =>
    cases hn : t.nested? name with
    | none =>
      rw [hn] at hnested
      rw [bindName_of_unknown hv hn, bindName_of_unknown (hvars.trans hv) hnested]
      exact bind_untagged _ fun _ => rfl
    | some n =>
      rw [hn] at hnested
      rw [bindName_of_nested hv hn, bindName_of_nested (hvars.trans hv) hnested]
      refine bind_untagged _ fun v => bind_untagged _ fun items? => ?_
      cases items? with
      | none => rfl
      | some items =>
        rw [Option.elim_some, Option.elim_some]
        exact populateWith_untagged (h n ⟨name, hn⟩ ⟨name, hnested⟩) n items s

/-- The names up to the first that fails, in states without the text of tags. -/
theorem bindNames_untagged {f g : State → Text → Except BindError State}
    (h : ∀ s name, g s.untagged name = (f s name).map untagged) (names : List Text) (s : State) :
    bindNames g s.untagged names =
      ((bindNames f s names).1.untagged, (bindNames f s names).2) := by
  induction names generalizing s with
  | nil => rfl
  | cons name rest ih =>
    rw [bindNames, bindNames, isResolved_untagged, h]
    split
    · exact ih s
    cases f s name with
    | error e => rfl
    | ok s' => exact ih s'

/-- **A level is grown without the text of tags**, by induction on the template. -/
theorem grow_untagged (t : Template) (names? : Option (List Text)) (item : σ) :
    grow accessor escaper kind t.untagged names? item =
      (grow accessor escaper kind t names? item).map untagged := by
  have hname : ∀ s name, bindName accessor escaper kind t.untagged item
      (fun n _ x => grow accessor escaper kind n.template none x) s.untagged name =
        (bindName accessor escaper kind t item
          (fun n _ x => grow accessor escaper kind n.template none x) s name).map untagged :=
    bindName_untagged fun n hn _ x => grow_untagged n.template none x
  rw [grow, grow, ← new_untagged, Template.names_untagged, bindNames_untagged hname]
  generalize bindNames _ _ _ = r
  obtain ⟨s, r⟩ := r
  cases r <;> rfl
termination_by sizeOf t
decreasing_by
  obtain ⟨_, hn⟩ := hn
  exact Template.sizeOf_lt_of_nested? hn

theorem seed_untagged (item : σ) (s : State) :
    seed accessor escaper kind names? item s.untagged =
      ((seed accessor escaper kind names? item s).1.untagged,
        (seed accessor escaper kind names? item s).2) := by
  unfold seed
  rw [template_untagged, Template.names_untagged]
  exact bindNames_untagged
    (bindName_untagged fun n _ _ x => grow_untagged n.template none x) _ s

theorem populate_untagged (name : Text) (items : List σ) (s : State) :
    populate accessor escaper kind name items names? s.untagged =
      (populate accessor escaper kind name items names? s).map untagged := by
  unfold populate
  rw [template_untagged, Template.nested?_untagged]
  cases s.template.nested? name with
  | none => rfl
  | some n => exact populateWith_untagged (grow_untagged n.template names?) n items s

end Level

/-! ## Levels of a state -/

theorem setChild_untagged (s : State) (name : Text) (i : Nat) (c : State) :
    s.untagged.setChild name i c.untagged = (s.setChild name i c).untagged := by
  have hset : Table.set s.untagged.children name ((s.untagged.childrenOf name).set i c.untagged) =
      tableUntagged (Table.set s.children name ((s.childrenOf name).set i c)) := by
    rw [children_untagged, childrenOf_untagged, ← List.map_set, Table.set_map,
      tableUntagged_eq_map]
  unfold setChild
  rw [hset]
  cases s
  rfl

theorem editAt_untagged {α : Type} {f g : State → State × α}
    (h : ∀ s, g s.untagged = ((f s).1.untagged, (f s).2)) (scope : Scope) (s : State) :
    editAt scope g s.untagged = ((editAt scope f s).1.untagged, (editAt scope f s).2) := by
  induction scope generalizing s with
  | nil =>
    show ((g s.untagged).1, Except.ok (g s.untagged).2) = _
    rw [h]
    rfl
  | cons step rest ih =>
    obtain ⟨name, i⟩ := step
    unfold editAt
    rw [template_untagged, Template.hasNested_untagged, childrenOf_untagged, List.getElem?_map,
      List.length_map]
    split
    · cases (s.childrenOf name)[i]? with
      | none => rfl
      | some c =>
        show ((s.untagged.setChild name i (editAt rest g c.untagged).1),
          (editAt rest g c.untagged).2) = _
        rw [ih, setChild_untagged]
    · rfl

/-! ## Rendering -/

/-- The same is written, by induction on the levels below. -/
theorem chunks_untagged (s : State) : s.untagged.chunks = s.chunks := by
  rw [chunks, chunks, template_untagged, Template.parts_untagged, List.zipIdx_map,
    List.flatMap_map]
  refine List.flatMap_congr fun (part, i) _ => ?_
  cases part with
  | text content => rfl
  | var name kind raw => exact congrArg Option.toList (s.slot_untagged i)
  | nested name form stamp body =>
    show ((s.untagged.childrenOf name).attach.flatMap fun c => chunks c.1) =
      (s.childrenOf name).attach.flatMap fun c => chunks c.1
    rw [List.flatMap_subtype (g := chunks) fun _ _ => rfl,
      List.flatMap_subtype (g := chunks) fun _ _ => rfl, List.unattach_attach,
      List.unattach_attach, childrenOf_untagged, List.flatMap_map]
    exact List.flatMap_congr fun c hc => chunks_untagged c
termination_by sizeOf s
decreasing_by exact sizeOf_lt_of_mem_childrenOf hc

/-- The same name is open first, by induction on the levels below. -/
theorem firstUnresolvedFrom?_untagged (path : Text) (s : State) :
    s.untagged.firstUnresolvedFrom? path = s.firstUnresolvedFrom? path := by
  rw [firstUnresolvedFrom?_eq, firstUnresolvedFrom?_eq path s, template_untagged,
    Template.names_untagged]
  refine findSome?_congr fun name _ => ?_
  rw [isResolved_untagged]
  split
  · rw [childrenOf_untagged, List.zipIdx_map, List.findSome?_map]
    refine findSome?_congr fun (c, i) hc => ?_
    have hmem : c ∈ s.childrenOf name := List.fst_mem_of_mem_zipIdx hc
    exact firstUnresolvedFrom?_untagged (enter path name i) c
  · rfl
termination_by sizeOf s
decreasing_by exact sizeOf_lt_of_mem_childrenOf hmem

end State

/-! ## Sessions -/

namespace Session

/-- The session without the text of tags in its templates. -/
def untagged (s : Session) : Session := { s with state := s.state.untagged }

theorem keep_untagged {f g : State → Except BindError State} {x : State}
    (h : g x.untagged = (f x).map State.untagged) :
    keep g x.untagged = ((keep f x).1.untagged, (keep f x).2) := by
  unfold keep
  rw [h]
  cases f x <;> rfl

theorem alter_untagged (s : Session) (c : Change) (x : State) :
    s.untagged.alter c x.untagged = ((s.alter c x).1.untagged, (s.alter c x).2) := by
  cases c with
  | setVariable name fragments kind => exact keep_untagged (State.setVariable_untagged _ _ x)
  | set name value => exact keep_untagged (State.setVariable_untagged _ _ x)
  | populate accessor name items kind names? =>
    exact keep_untagged (State.populate_untagged name items x)
  | seed accessor item kind names? => exact State.seed_untagged item x

/-- **An operation does not read the text of tags.** -/
theorem perform_untagged (s : Session) (op : Operation) :
    s.untagged.perform op = (s.perform op).untagged := by
  have hedit : ∀ c : Change, s.untagged.edit (s.untagged.alter c) =
      ((s.edit (s.alter c)).1.untagged, (s.edit (s.alter c)).2) := by
    intro c
    unfold edit
    rw [show s.untagged.state = s.state.untagged from rfl, alter_untagged]
    rfl
  cases op with
  | change scope c =>
    have hstate := State.editAt_untagged (alter_untagged s c) scope s.state
    show { s.untagged with state := (s.state.untagged.editAt scope (s.untagged.alter c)).1 } = _
    rw [hstate]
    rfl
  | seedData data =>
    show (s.untagged.seedData data).1 = (s.seedData data).1.untagged
    unfold seedData
    cases data.toJson rootName with
    | error e => rfl
    | ok j =>
      exact congrArg Prod.fst
        (hedit (.seed Json.Node.accessor (Json.Node.root j) s.kind none))
  | populateData name items =>
    show (s.untagged.populateData name items).1 = (s.populateData name items).1.untagged
    unfold populateData
    cases items.mapM (Datum.toJson name) with
    | error e => rfl
    | ok js =>
      exact congrArg Prod.fst
        (hedit (.populate Json.Node.accessor name (js.map Json.Node.root) s.kind none))

theorem render_untagged (s : Session) : s.untagged.render = s.render := by
  unfold render State.firstUnresolved? State.render
  rw [show s.untagged.state = s.state.untagged from rfl, State.firstUnresolvedFrom?_untagged,
    State.chunks_untagged]

/-- **What is rendered does not depend on the text of tags**, after any operations. -/
theorem render_run_untagged (t : Template) (escaper : Escaper) (kind : EscapeKind)
    (ops : List Operation) :
    (ops.foldl perform ⟨.new t.untagged, escaper, kind⟩).render =
      (ops.foldl perform ⟨.new t, escaper, kind⟩).render := by
  have hrun : ∀ s : Session, ops.foldl perform s.untagged = (ops.foldl perform s).untagged := by
    induction ops with
    | nil => exact fun _ => rfl
    | cons op rest ih =>
      intro s
      rw [List.foldl_cons, List.foldl_cons, perform_untagged, ih]
  have hnew : (⟨.new t.untagged, escaper, kind⟩ : Session) = untagged ⟨.new t, escaper, kind⟩ := by
    rw [untagged, State.new_untagged]
  rw [hnew, hrun, render_untagged]

end Session

end Stencil
