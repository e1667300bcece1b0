import Stencil.Proofs.Session.Bindings

/-!
# Failed operations

**Writes** (`Writing`). Here a level is bound write by write: each slot, each name, each table entry
is set in its turn, and nothing that was written is taken back when a later step fails. A failing
operation leaves its level as it was only if all that can fail comes before the first write.

**Steps that try** (`Writing.Tries`). Such a step does what a change of the level as a whole does,
and writes nothing if it fails. Setting a variable and binding a nested template are of this kind,
at every level below an item; hence seeding stops between two names.

**Stopping** (`State.Stops`). Seeding that fails has done what seeding the names before the failing
one does, and binding one name touches no other.

**Operations** (`Session.carryOut_failed`). A failed operation leaves the whole session as it was,
at whatever level it was made, unless it seeds; then it stops in this sense.
-/

namespace Stencil

/-! ## Writes -/

/-- A step that writes to a state. What was written stays when the step fails. -/
abbrev Writing := ExceptT BindError (StateM State)

namespace Writing

/-- What a step leaves of a state, and what it answers. -/
def on {α : Type} (x : Writing α) (s : State) : State × Except BindError α := (x.run.run s).swap

/-- Sets slots one after another. -/
def putSlots : List (Nat × Text) → Writing Unit
  | [] => return ()
  | (i, text) :: rest => do
    modify fun s => { s with slots := s.slots.set i (some text) }
    putSlots rest

def putChildren (name : Text) (states : List State) : Writing Unit :=
  modify fun s => { s with children := Table.set s.children name states }

def putResolved (name : Text) : Writing Unit :=
  modify fun s => { s with resolved := s.resolved ++ [name] }

def putRepetitions (id : TemplateId) (count : Nat) : Writing Unit :=
  modify fun s => { s with repetitions := Table.set s.repetitions id count }

/-- Sets a variable from fragments of text. -/
def setVariable (escaper : Escaper) (name : Text) (fragments : List Text) (kind : EscapeKind) :
    Writing Unit := do
  let s ← get
  if !s.template.hasVariable name then throw (.session (.unknownVariable name))
  if s.isResolved name then throw (.session (.alreadySet name))
  let filled ← (s.template.positions name).mapM fun i =>
    liftM (State.fill escaper kind fragments s.template name i)
  putSlots filled
  putResolved name

/-- The state that a step makes of a new one, aside from the state that is written to. -/
def inNew (t : Template) (x : Writing Unit) : Writing State :=
  match x.on (.new t) with
  | (s, .ok ()) => return s
  | (_, .error e) => throw e

/-- Binds a nested template to items, where `child` fills the state of one repetition. -/
def populateWith {σ : Type} (n : Nested) (child : σ → Writing Unit) (items : List σ)
    (names? : Option (List Text)) : Writing Unit := do
  let s ← get
  if s.isResolved n.name then throw (.session (.alreadyPopulated n.name))
  if let some expected := (Table.get? s.repetitions n.template.id).filter (· ≠ items.length) then
    throw (.session (.repetitionMismatch n.name expected items.length))
  if let some name := (names?.getD []).find? fun name => !n.template.names.contains name then
    throw (.session (.unknownName name))
  let states ← items.mapM fun item => inNew n.template (child item)
  putRepetitions n.template.id items.length
  putChildren n.name states
  putResolved n.name

theorem exists_name_of_nested? {t : Template} {name : Text} {n : Nested}
    (h : t.nested? name = some n) : ∃ name, t.nested? name = some n := ⟨name, h⟩

/-- Binds one name to what an item has for it, where `child` fills the state of one repetition. -/
def bindName {σ : Type} (accessor : Accessor σ) (escaper : Escaper) (kind : EscapeKind)
    (t : Template) (item : σ)
    (child : (n : Nested) → (∃ name, t.nested? name = some n) → σ → Writing Unit)
    (name : Text) : Writing Unit := do
  let v ← liftM ((accessor item name).mapError BindError.access)
  if t.hasVariable name then
    match ← liftM ((State.fragmentsFor name v).mapError BindError.access) with
    | some fragments => setVariable escaper name fragments kind
    | none => return ()
  else
    match h : t.nested? name with
    | some n =>
      match ← liftM ((State.itemsFor name item v).mapError BindError.access) with
      | some items => populateWith n (child n (exists_name_of_nested? h)) items none
      | none => return ()
    | none => throw (.session (.unknownName name))

/-- Binds the names that are not resolved yet. -/
def bindNames (bind : Text → Writing Unit) : List Text → Writing Unit
  | [] => return ()
  | name :: rest => do
    let s ← get
    if !s.isResolved name then bind name
    bindNames bind rest

/-- Seeds a level of the template from an item, over all names unless some are given. -/
def seedLevel {σ : Type} (accessor : Accessor σ) (escaper : Escaper) (kind : EscapeKind)
    (t : Template) (names? : Option (List Text)) (item : σ) : Writing Unit :=
  let bind := bindName accessor escaper kind t item fun n _ x =>
    seedLevel accessor escaper kind n.template none x
  bindNames bind (names?.getD t.names)
termination_by sizeOf t
decreasing_by
  rename_i h
  obtain ⟨_, h⟩ := h
  exact Template.sizeOf_lt_of_nested? h

/-- Seeds the level that is written to. -/
def seed {σ : Type} (accessor : Accessor σ) (escaper : Escaper) (kind : EscapeKind)
    (names? : Option (List Text)) (item : σ) : Writing Unit := do
  let s ← get
  seedLevel accessor escaper kind s.template names? item

/-- Binds a nested template to items, each repetition seeded from its item. -/
def populate {σ : Type} (accessor : Accessor σ) (escaper : Escaper) (kind : EscapeKind)
    (name : Text) (items : List σ) (names? : Option (List Text)) : Writing Unit := do
  let s ← get
  match s.template.nested? name with
  | none => throw (.session (.unknownTemplate name))
  | some n =>
    populateWith n (fun x => seedLevel accessor escaper kind n.template names? x) items names?

/-! ## Steps that try -/

section Steps

variable {α β : Type} {s : State}

@[simp] theorem on_throw (e : BindError) : (throw e : Writing α).on s = (s, .error e) := rfl

@[simp] theorem on_get : (get : Writing State).on s = (s, .ok s) := rfl

@[simp] theorem on_lift (r : Except BindError α) : (liftM r : Writing α).on s = (s, r) := by
  cases r <;> rfl

theorem on_bind (x : Writing α) (k : α → Writing β) :
    (x >>= k).on s =
      match x.on s with
      | (s', .ok a) => (k a).on s'
      | (s', .error e) => (s', .error e) := by
  simp only [on, ExceptT.run_bind, StateT.run_bind]
  cases x.run.run s with
  | mk r s' => cases r <;> rfl

/-- Steps that answer and write nothing, one after another. -/
theorem on_mapM {x : α → Writing β} {f : α → Except BindError β}
    (h : ∀ a s, (x a).on s = (s, f a)) (xs : List α) : (xs.mapM x).on s = (s, xs.mapM f) := by
  induction xs with
  | nil => rfl
  | cons a xs ih =>
    rw [List.mapM_cons, List.mapM_cons, on_bind, h]
    cases f a with
    | error e => rfl
    | ok b =>
      dsimp only
      rw [on_bind, ih]
      cases xs.mapM f <;> rfl

end Steps

/-- The step does what a change of the whole state does, and writes nothing if it fails. -/
def Tries (x : Writing Unit) (f : State → Except BindError State) : Prop :=
  ∀ s, x.on s = Session.keep f s

theorem on_putSlots (filled : List (Nat × Text)) (s : State) :
    (putSlots filled).on s =
      ({ s with slots := filled.foldl (fun slots (i, text) => slots.set i (some text)) s.slots },
        .ok ()) := by
  induction filled generalizing s with
  | nil =>
    cases s
    rw [putSlots]
    rfl
  | cons e filled ih =>
    rw [putSlots, on_bind]
    exact ih { s with slots := s.slots.set e.1 (some e.2) }

theorem tries_setVariable (escaper : Escaper) (name : Text) (fragments : List Text)
    (kind : EscapeKind) :
    (setVariable escaper name fragments kind).Tries
      (State.setVariable escaper name fragments kind) := by
  intro s
  unfold setVariable Session.keep State.setVariable
  rw [on_bind, on_get]
  dsimp only
  by_cases hv : (!s.template.hasVariable name) = true
  · rw [if_pos hv, if_pos hv]
    rfl
  rw [if_neg hv, if_neg hv]
  by_cases hr : s.isResolved name = true
  · rw [if_pos hr, if_pos hr]
    rfl
  rw [if_neg hr, if_neg hr, on_bind, on_mapM fun i s => on_lift _]
  cases (s.template.positions name).mapM (State.fill escaper kind fragments s.template name) with
  | error e => rfl
  | ok filled =>
    dsimp only
    rw [on_bind, on_putSlots]
    rfl

theorem tries_populateWith {σ : Type} (n : Nested) (child : σ → Writing Unit)
    (grow : σ → Except BindError State)
    (h : ∀ a s, (inNew n.template (child a)).on s = (s, grow a)) (items : List σ)
    (names? : Option (List Text)) :
    (populateWith n child items names?).Tries
      fun s => State.populateWith n grow items names? s := by
  intro s
  unfold populateWith Session.keep State.populateWith
  rw [on_bind, on_get]
  dsimp only
  by_cases hr : s.isResolved n.name = true
  · rw [if_pos hr, if_pos hr]
    rfl
  rw [if_neg hr, if_neg hr]
  cases (Table.get? s.repetitions n.template.id).filter (· ≠ items.length) with
  | some expected => rfl
  | none =>
    dsimp only
    cases (names?.getD []).find? fun name => !n.template.names.contains name with
    | some name => rfl
    | none =>
      dsimp only
      rw [on_bind, on_mapM h]
      cases items.mapM grow <;> rfl

theorem Tries.congr {x : Writing Unit} {f g : State → Except BindError State} (h : x.Tries f)
    (hfg : ∀ s, g s = f s) : x.Tries g := by
  rw [funext hfg]
  exact h

section Seeding

variable {σ : Type} {accessor : Accessor σ} {escaper : Escaper} {kind : EscapeKind} {t : Template}

/-- An item is asked before anything is written. -/
theorem tries_ask {α : Type} {x : α → Writing Unit} {f : α → State → Except BindError State}
    (r : Except BindError α) (h : ∀ a, (x a).Tries (f a)) :
    Tries (liftM r >>= x) fun s => r >>= fun a => f a s := by
  intro s
  rw [on_bind, on_lift]
  cases r with
  | error e => rfl
  | ok a => exact h a s

theorem tries_pass : (pure () : Writing Unit).Tries fun s => .ok s := fun _ => rfl

theorem tries_bindName {item : σ}
    {child : (n : Nested) → (∃ name, t.nested? name = some n) → σ → Writing Unit}
    {grow : (n : Nested) → (∃ name, t.nested? name = some n) → σ → Except BindError State}
    (h : ∀ n hn a s, (inNew n.template (child n hn a)).on s = (s, grow n hn a)) (name : Text) :
    (bindName accessor escaper kind t item child name).Tries
      fun s => State.bindName accessor escaper kind t item grow s name := by
  cases hv : t.hasVariable name with
  | true =>
    refine Tries.congr ?_ fun s => State.bindName_of_variable hv
    refine tries_ask _ fun v => ?_
    rw [if_pos hv]
    refine tries_ask _ fun fragments? => ?_
    cases fragments? with
    | none => exact tries_pass
    | some fragments => exact tries_setVariable escaper name fragments kind
  | false =>
    cases hn : t.nested? name with
    | none =>
      refine Tries.congr ?_ fun s => State.bindName_of_unknown hv hn
      refine tries_ask _ fun v => ?_
      rw [if_neg (Bool.eq_false_iff.1 hv)]
      split
      · rename_i m hm
        rw [hn] at hm
        cases hm
      · exact fun _ => rfl
    | some n =>
      refine Tries.congr ?_ fun s => State.bindName_of_nested hv hn
      refine tries_ask _ fun v => ?_
      rw [if_neg (Bool.eq_false_iff.1 hv)]
      split
      · rename_i m hm
        cases hn.symm.trans hm
        refine tries_ask _ fun items? => ?_
        cases items? with
        | none => exact tries_pass
        | some items => exact tries_populateWith n _ _ (h n ⟨name, hn⟩) items none
      · rename_i hnone
        rw [hn] at hnone
        cases hnone

/-- Names are bound one after another, up to the first that fails. -/
theorem on_bindNames {x : Text → Writing Unit} {bind : State → Text → Except BindError State}
    (h : ∀ name, (x name).Tries fun s => bind s name) (names : List Text) (s : State) :
    (bindNames x names).on s = State.bindNames bind s names := by
  induction names generalizing s with
  | nil => rfl
  | cons name rest ih =>
    unfold bindNames State.bindNames
    rw [on_bind, on_get]
    dsimp only
    by_cases hr : s.isResolved name = true
    · simp only [hr]
      exact ih s
    · simp only [hr, Bool.not_false, if_true, Bool.false_eq_true, if_false]
      rw [on_bind, h name s]
      unfold Session.keep
      dsimp only
      cases bind s name with
      | error e => rfl
      | ok s' => exact ih s'

/-- A new level that is seeded write by write is had as it is grown, and the level that is written
to stays. -/
theorem on_inNew {names? : Option (List Text)} {item : σ} {x : Writing Unit}
    (h : x.on (.new t) = State.bindNames (State.seedName accessor escaper kind t item) (.new t)
      (names?.getD t.names)) (s : State) :
    (inNew t x).on s = (s, State.grow accessor escaper kind t names? item) := by
  unfold inNew
  rw [State.grow]
  cases hr : State.bindNames (State.seedName accessor escaper kind t item) (.new t)
      (names?.getD t.names) with
  | mk c r =>
    rw [h, hr]
    cases r <;> rfl

/-- **Seeding writes what binding name by name leaves.** The induction is on the levels of the
template. -/
theorem on_seedLevel (t : Template) (names? : Option (List Text)) (item : σ) (s : State) :
    (seedLevel accessor escaper kind t names? item).on s =
      State.bindNames (State.seedName accessor escaper kind t item) s (names?.getD t.names) := by
  rw [seedLevel]
  refine on_bindNames (tries_bindName fun n hn x => on_inNew ?_) _ s
  have hlt : sizeOf n.template < sizeOf t := by
    obtain ⟨_, hn⟩ := hn
    exact Template.sizeOf_lt_of_nested? hn
  exact on_seedLevel n.template none x _
termination_by sizeOf t

theorem on_seed (names? : Option (List Text)) (item : σ) (s : State) :
    (seed accessor escaper kind names? item).on s =
      State.seed accessor escaper kind names? item s := by
  unfold seed
  rw [on_bind, on_get]
  exact on_seedLevel s.template names? item s

theorem tries_populate (name : Text) (items : List σ) (names? : Option (List Text)) :
    (populate accessor escaper kind name items names?).Tries
      (State.populate accessor escaper kind name items names?) := by
  intro s
  unfold populate Session.keep State.populate
  rw [on_bind, on_get]
  dsimp only
  cases s.template.nested? name with
  | none => rfl
  | some n =>
    exact tries_populateWith n _ _ (fun x => on_inNew (on_seedLevel n.template names? x _)) items
      names? s

end Seeding

end Writing

/-! ## Names that are not touched -/

namespace State

variable {s s' s'' : State} {name other : Text}

/-- What is bound to the name is the same in both states. -/
structure Untouched (name : Text) (s s' : State) : Prop where
  template : s'.template = s.template
  resolved : name ∈ s'.resolved ↔ name ∈ s.resolved
  slot : ∀ i ∈ s.template.positions name, s'.slot i = s.slot i
  children : Table.get? s'.children name = Table.get? s.children name

theorem Untouched.refl (name : Text) (s : State) : s.Untouched name s :=
  ⟨rfl, Iff.rfl, fun _ _ => rfl, rfl⟩

theorem Untouched.trans (h : Untouched name s s') (h' : Untouched name s' s'') :
    Untouched name s s'' where
  template := h'.template.trans h.template
  resolved := h'.resolved.trans h.resolved
  slot := fun i hi => (h'.slot i (h.template ▸ hi)).trans (h.slot i hi)
  children := h'.children.trans h.children

theorem getElem?_foldl_set_of_notMem {i : Nat} (texts : List (Nat × Text))
    (slots : List (Option Text)) (h : i ∉ texts.map Prod.fst) :
    (texts.foldl (fun slots (i, text) => slots.set i (some text)) slots)[i]? = slots[i]? := by
  induction texts generalizing slots with
  | nil => rfl
  | cons e texts ih =>
    rw [List.map_cons, List.mem_cons, not_or] at h
    rw [List.foldl_cons, ih _ h.2, List.getElem?_set_ne (Ne.symm h.1)]

theorem untouched_setVariable {escaper : Escaper} {fragments : List Text} {kind : EscapeKind}
    (h : s.setVariable escaper name fragments kind = .ok s') (hne : other ≠ name) :
    Untouched other s s' := by
  obtain ⟨-, texts, ht, rfl⟩ := setVariable_ok h
  refine ⟨rfl, mem_resolved_append hne, fun i hi => ?_, rfl⟩
  refine congrArg Option.join (getElem?_foldl_set_of_notMem texts s.slots fun hmem => hne ?_)
  exact Template.eq_of_mem_positions hi (ht ▸ hmem)

theorem untouched_populated {n : Nested} (states : List State) (hne : other ≠ n.name) :
    Untouched other s (s.populated n states) where
  template := rfl
  resolved := mem_resolved_append hne
  slot := fun _ _ => rfl
  children := by
    show Table.get? (Table.set s.children n.name states) other = _
    rw [Table.get?_set, if_neg hne]

section Seeding

variable {σ : Type} {accessor : Accessor σ} {escaper : Escaper} {kind : EscapeKind} {t : Template}
  {item : σ}

/-- A name that can be bound is left open because the item does not have it, or it is bound. -/
theorem seedName_cases (h : seedName accessor escaper kind t item s name = .ok s') :
    (accessor item name = .ok .absent ∧ s' = s) ∨
      (∃ ts, s.setVariable escaper name ts kind = .ok s') ∨
        ∃ n states, n.name = name ∧ s' = s.populated n states := by
  rcases hv : t.hasVariable name with _ | _
  · cases hn : t.nested? name with
    | none =>
      obtain ⟨v, -, h⟩ := bind_eq_ok h
      rw [hv, if_neg Bool.false_ne_true] at h
      split at h
      · rename_i n hn'
        rw [hn] at hn'
        cases hn'
      · cases h
    | some n =>
      rcases (bindName_nested_iff hv hn).1 h with h | ⟨xs, -, hpop⟩
      · exact .inl h
      · obtain ⟨states, -, rfl, -⟩ := populateWith_ok hpop
        exact .inr (.inr ⟨n, states, (Template.mem_nestedList_of_nested? hn).2, rfl⟩)
  · rcases (bindName_variable_iff hv).1 h with h | ⟨ts, -, hset⟩
    · exact .inl h
    · exact .inr (.inl ⟨ts, hset⟩)

theorem untouched_seedName (h : seedName accessor escaper kind t item s name = .ok s')
    (hne : other ≠ name) : Untouched other s s' := by
  rcases seedName_cases h with ⟨-, rfl⟩ | ⟨ts, hset⟩ | ⟨n, states, rfl, rfl⟩
  · exact .refl other s'
  · exact untouched_setVariable hset hne
  · exact untouched_populated states hne

/-- A name that was asked for and stays open is one that the item does not have. It can be left open
on every level that has it. -/
theorem seedName_again (h : seedName accessor escaper kind t item s name = .ok s')
    (hr : name ∉ s'.resolved) (s'' : State) :
    seedName accessor escaper kind t item s'' name = .ok s'' := by
  rcases seedName_cases h with ⟨habs, -⟩ | ⟨ts, hset⟩ | ⟨n, states, rfl, rfl⟩
  · rcases hv : t.hasVariable name with _ | _
    · rcases Template.mem_names_cases (mem_names_of_bindName h) with hv' | ⟨n, hn, rfl⟩
      · rw [hv] at hv'
        cases hv'
      · obtain ⟨m, hm⟩ := Option.isSome_iff_exists.1
          (Template.hasNested_iff.1 (Template.hasNested_of_mem hn))
        exact (bindName_nested_iff hv hm).2 (.inl ⟨habs, rfl⟩)
    · exact (bindName_variable_iff hv).2 (.inl ⟨habs, rfl⟩)
  · obtain ⟨-, texts, -, rfl⟩ := setVariable_ok hset
    exact absurd (List.mem_append_right _ List.mem_cons_self) hr
  · exact absurd (List.mem_append_right _ List.mem_cons_self) hr

/-! ## Stopping -/

/-- Between the states some names were seeded, and then one could not be: it is a new one, and
nothing was bound for it or for a name behind it. -/
structure Stops (pre : List Text) (name : Text) (post : List Text) (s s' : State) : Prop where
  new : name ∉ pre
  unbound : name ∉ s'.resolved
  untouched : ∀ other ∈ name :: post, other ∉ pre → Untouched other s s'

theorem untouched_bindNames {names : List Text}
    (h : bindNames (seedName accessor escaper kind t item) s names = (s', .ok ()))
    (hother : other ∉ names) : Untouched other s s' := by
  induction names generalizing s with
  | nil =>
    cases h
    exact .refl other _
  | cons name rest ih =>
    rw [List.mem_cons, not_or] at hother
    unfold bindNames at h
    split at h
    · exact ih h hother.2
    · cases hb : seedName accessor escaper kind t item s name with
      | error e =>
        rw [hb] at h
        cases h
      | ok s₁ =>
        rw [hb] at h
        exact (untouched_seedName hb hother.1).trans (ih h hother.2)

/-- A name that was seeded and stays open can be left open again. -/
theorem seedName_of_bindNames {names : List Text}
    (h : bindNames (seedName accessor escaper kind t item) s names = (s', .ok ()))
    (hname : name ∈ names) (hr : name ∉ s'.resolved) :
    seedName accessor escaper kind t item s' name = .ok s' := by
  induction names generalizing s with
  | nil => cases hname
  | cons first rest ih =>
    unfold bindNames at h
    by_cases hrest : name ∈ rest
    · split at h
      · exact ih h hrest
      · split at h
        · exact ih h hrest
        · cases h
    · obtain rfl : name = first := (List.mem_cons.1 hname).resolve_right hrest
      split at h
      · rename_i hres
        rw [isResolved, List.contains_iff_mem] at hres
        exact absurd ((untouched_bindNames h hrest).resolved.2 hres) hr
      · split at h
        · rename_i s₁ hb
          have hlater := untouched_bindNames h hrest
          exact seedName_again hb (fun hmem => hr (hlater.resolved.2 hmem)) s'
        · cases h

/-- Names are bound up to the first that fails. -/
theorem bindNames_error {bind : State → Text → Except BindError State} {names : List Text}
    {e : BindError} (h : bindNames bind s names = (s', .error e)) :
    ∃ pre name post, names = pre ++ name :: post ∧ bindNames bind s pre = (s', .ok ()) ∧
      name ∉ s'.resolved ∧ bind s' name = .error e := by
  induction names generalizing s with
  | nil => cases h
  | cons first rest ih =>
    unfold bindNames at h
    split at h
    · rename_i hres
      obtain ⟨pre, name, post, rfl, hpre, hrest⟩ := ih h
      refine ⟨first :: pre, name, post, rfl, ?_, hrest⟩
      rw [bindNames, if_pos hres]
      exact hpre
    · rename_i hres
      split at h
      · rename_i s₁ hb
        obtain ⟨pre, name, post, rfl, hpre, hrest⟩ := ih h
        refine ⟨first :: pre, name, post, rfl, ?_, hrest⟩
        rw [bindNames, if_neg hres, hb]
        exact hpre
      · rename_i e' hb
        cases h
        refine ⟨[], first, rest, rfl, rfl, ?_, hb⟩
        rwa [isResolved, List.contains_iff_mem] at hres

/-- **Seeding that fails stops between two names.** -/
theorem seed_error {names? : Option (List Text)} {e : BindError}
    (h : s.seed accessor escaper kind names? item = (s', .error e)) :
    ∃ pre name post, names?.getD s.template.names = pre ++ name :: post ∧
      s.seed accessor escaper kind (some pre) item = (s', .ok ()) ∧ Stops pre name post s s' ∧
      seedName accessor escaper kind s.template item s' name = .error e := by
  obtain ⟨pre, name, post, hnames, hpre, hr, hb⟩ := bindNames_error h
  refine ⟨pre, name, post, hnames, hpre, ⟨fun hmem => ?_, hr, fun other _ hother => ?_⟩, hb⟩
  · cases hb.symm.trans (seedName_of_bindNames hpre hmem hr)
  · exact untouched_bindNames hpre hother

end Seeding

/-! ## Levels -/

/-- The level that a scope leads to. -/
def at? : Scope → State → Option State
  | [], s => some s
  | (name, i) :: rest, s =>
    if s.template.hasNested name then (s.childrenOf name)[i]?.bind (at? rest) else none

variable {α β : Type} {x : State}

/-- A child that is put where it stands changes nothing. -/
theorem setChild_self {i : Nat} (h : (s.childrenOf name)[i]? = some x) :
    s.setChild name i x = s := by
  unfold childrenOf at h
  cases hg : Table.get? s.children name with
  | none =>
    rw [hg] at h
    cases h
  | some cs =>
    rw [hg, Option.getD_some] at h
    obtain ⟨hi, rfl⟩ := List.getElem?_eq_some_iff.1 h
    unfold setChild childrenOf
    rw [hg, Option.getD_some, List.set_getElem_self, Table.set_eq_self hg]
    cases s
    rfl

/-- A change is made at the level of its scope, or the scope leads nowhere and nothing is done. -/
theorem editAt_cases (scope : Scope) (f : State → State × α) (s : State) :
    (∃ x, s.at? scope = some x ∧ (s.editAt scope f).2 = .ok (f x).2 ∧
      (s.editAt scope f).1.at? scope = some (f x).1) ∨
    (s.at? scope = none ∧ ∃ e, s.editAt scope f = (s, .error e)) := by
  induction scope generalizing s with
  | nil => exact .inl ⟨s, rfl, rfl, rfl⟩
  | cons step rest ih =>
    obtain ⟨name, i⟩ := step
    unfold editAt at?
    by_cases hn : s.template.hasNested name = true
    · rw [if_pos hn, if_pos hn]
      cases hi : (s.childrenOf name)[i]? with
      | none => exact .inr ⟨rfl, _, rfl⟩
      | some c =>
        dsimp only [Option.bind_some]
        rcases ih c with ⟨x, hx, hr, hat⟩ | ⟨hnone, e, he⟩
        · refine .inl ⟨x, hx, hr, ?_⟩
          have hn' : (s.setChild name i (c.editAt rest f).1).template.hasNested name = true := hn
          obtain ⟨hlt, -⟩ := List.getElem?_eq_some_iff.1 hi
          rw [if_pos hn', childrenOf_setChild, if_pos rfl, List.getElem?_set_self hlt]
          exact hat
        · refine .inr ⟨hnone, e, ?_⟩
          rw [he, setChild_self hi]
    · exact .inr ⟨if_neg hn, _, if_neg hn⟩

/-- Two changes that leave the same level leave the same state. -/
theorem editAt_congr {f : State → State × α} {g : State → State × β} (scope : Scope)
    (hx : s.at? scope = some x) (h : (f x).1 = (g x).1) :
    (s.editAt scope f).1 = (s.editAt scope g).1 := by
  induction scope generalizing s with
  | nil =>
    cases hx
    exact h
  | cons step rest ih =>
    obtain ⟨name, i⟩ := step
    unfold at? at hx
    split at hx
    · rename_i hn
      obtain ⟨c, hi, hx⟩ := Option.bind_eq_some_iff.1 hx
      unfold editAt
      rw [if_pos hn, if_pos hn, hi]
      exact congrArg (s.setChild name i) (ih hx)
    · cases hx

/-- A change that leaves its level as it was leaves the state as it was. -/
theorem editAt_self {f : State → State × α} (scope : Scope) (hx : s.at? scope = some x)
    (h : (f x).1 = x) : (s.editAt scope f).1 = s := by
  induction scope generalizing s with
  | nil =>
    cases hx
    exact h
  | cons step rest ih =>
    obtain ⟨name, i⟩ := step
    unfold at? at hx
    split at hx
    · rename_i hn
      obtain ⟨c, hi, hx⟩ := Option.bind_eq_some_iff.1 hx
      unfold editAt
      rw [if_pos hn, hi]
      show s.setChild name i (c.editAt rest f).1 = s
      rw [ih hx, setChild_self hi]
    · cases hx

end State

/-! ## Sessions -/

/-- The change binds names one after another. -/
def Change.seeds : Change → Bool
  | .seed _ _ _ _ => true
  | _ => false

/-- The operation seeds a level. -/
def Operation.seeds : Operation → Bool
  | .change _ c => c.seeds
  | .seedData _ => true
  | .populateData _ _ => false

namespace Session

variable {s : Session}

/-- The writes of a change, in the session's manner of escaping. -/
def writes (s : Session) : Change → Writing Unit
  | .setVariable name fragments kind => .setVariable s.escaper name fragments kind
  | .set name value => .setVariable s.escaper name [value] s.kind
  | .populate accessor name items kind names? =>
    .populate accessor s.escaper kind name items names?
  | .seed accessor item kind names? => .seed accessor s.escaper kind names? item

/-- What an operation does to a session as a whole, and its answer or why its level was not
reached. -/
def respond (s : Session) : Operation → Session × Except State.ScopeError (Except BindError Unit)
  | .change scope c => s.editAt scope (s.alter c)
  | .seedData data => ((s.seedData data).1, .ok (s.seedData data).2)
  | .populateData name items => ((s.populateData name items).1, .ok (s.populateData name items).2)

/-- The operation, carried out write by write. -/
def carryOut (s : Session) : Operation → Session × Except State.ScopeError (Except BindError Unit)
  | .change scope c => s.editAt scope (s.writes c).on
  | .seedData data =>
    match data.toJson rootName with
    | .ok j => s.editAt [] (s.writes (.seed Json.Node.accessor (Json.Node.root j) s.kind none)).on
    | .error e => (s, .ok (.error (.access e)))
  | .populateData name items =>
    match items.mapM (Datum.toJson name) with
    | .ok js => s.editAt [] (s.writes
        (.populate Json.Node.accessor name (js.map Json.Node.root) s.kind none)).on
    | .error e => (s, .ok (.error (.access e)))

/-- The writes of a change leave what the change leaves. -/
theorem on_writes (c : Change) : (s.writes c).on = s.alter c := by
  funext x
  cases c with
  | setVariable name fragments kind => exact Writing.tries_setVariable _ _ _ _ x
  | set name value => exact Writing.tries_setVariable _ _ _ _ x
  | populate accessor name items kind names? => exact Writing.tries_populate _ _ _ x
  | seed accessor item kind names? => exact Writing.on_seed _ _ x

theorem carryOut_eq (op : Operation) : s.carryOut op = s.respond op := by
  cases op with
  | change scope c => exact congrArg (s.editAt scope) (on_writes c)
  | seedData data =>
    unfold carryOut respond seedData
    dsimp only
    cases data.toJson rootName with
    | error e => rfl
    | ok j => exact congrArg (s.editAt []) (on_writes _)
  | populateData name items =>
    unfold carryOut respond populateData
    dsimp only
    cases items.mapM (Datum.toJson name) with
    | error e => rfl
    | ok js => exact congrArg (s.editAt []) (on_writes _)

/-- A change other than seeding leaves a level that it fails on. -/
theorem alter_failed {c : Change} (hc : c.seeds = false) {x : State}
    (h : (s.alter c x).2 ≠ .ok ()) : (s.alter c x).1 = x := by
  have hkeep : ∀ f : State → Except BindError State, (keep f x).2 ≠ .ok () → (keep f x).1 = x := by
    intro f hf
    unfold keep at hf ⊢
    split
    · rename_i y hy
      rw [hy] at hf
      exact absurd rfl hf
    · rfl
  cases c with
  | setVariable name fragments kind => exact hkeep _ h
  | set name value => exact hkeep _ h
  | populate accessor name items kind names? => exact hkeep _ h
  | seed accessor item kind names? => cases hc

/-- The session is left as it was if its level is. -/
theorem editAt_failed {scope : State.Scope} {f : State → State × Except BindError Unit}
    (hf : ∀ x, (f x).2 ≠ .ok () → (f x).1 = x) (h : (s.editAt scope f).2 ≠ .ok (.ok ())) :
    (s.editAt scope f).1 = s := by
  have hstate : (s.state.editAt scope f).1 = s.state := by
    rcases State.editAt_cases scope f s.state with ⟨x, hx, hr, -⟩ | ⟨-, e, he⟩
    · refine State.editAt_self scope hx (hf x fun hok => h ?_)
      show (s.state.editAt scope f).2 = _
      rw [hr, hok]
    · rw [he]
  show { s with state := (s.state.editAt scope f).1 } = s
  rw [hstate]

/-- **A failed operation leaves the session as it was.** Each operation is carried out write by
write. If it does not seed, the whole session is what it was before; if it seeds, its level is left
as by seeding the names before the one that failed, and nothing is bound for that name or a later
one. -/
theorem carryOut_failed (s : Session) :
    (∀ op, s.carryOut op = s.respond op) ∧
    (∀ op, op.seeds = false → (s.carryOut op).2 ≠ .ok (.ok ()) → (s.carryOut op).1 = s) ∧
    ∀ (scope : State.Scope) (σ : Type) (accessor : Accessor σ) (item : σ) (kind : EscapeKind)
      (names? : Option (List Text)) (s' : Session) (e : BindError),
      s.carryOut (.change scope (.seed accessor item kind names?)) = (s', .ok (.error e)) →
        ∃ pre name post x x', s.state.at? scope = some x ∧ s'.state.at? scope = some x' ∧
          names?.getD x.template.names = pre ++ name :: post ∧
          s.carryOut (.change scope (.seed accessor item kind (some pre))) = (s', .ok (.ok ())) ∧
          x.Stops pre name post x' ∧
          State.seedName accessor s.escaper kind x.template item x' name = .error e := by
  refine ⟨fun op => carryOut_eq op, fun op hop h => ?_,
    fun scope σ accessor item kind names? s' e h => ?_⟩
  · rw [carryOut_eq] at h ⊢
    cases op with
    | change scope c => exact editAt_failed (fun x => alter_failed hop) h
    | seedData data => cases hop
    | populateData name items =>
      unfold respond populateData at h ⊢
      dsimp only at h ⊢
      cases hj : items.mapM (Datum.toJson name) with
      | error e => rfl
      | ok js =>
        rw [hj] at h
        have hpop : (Change.populate Json.Node.accessor name (js.map Json.Node.root) s.kind
            none).seeds = false := rfl
        exact editAt_failed (fun x => alter_failed hpop) (show
          (s.editAt [] (s.alter (.populate Json.Node.accessor name (js.map Json.Node.root) s.kind
            none))).2 ≠ .ok (.ok ()) from h)
  · rw [carryOut_eq] at h
    obtain ⟨rfl, hr⟩ := Prod.ext_iff.1 h
    rcases State.editAt_cases scope (s.alter (.seed accessor item kind names?)) s.state with
      ⟨x, hx, hans, hat⟩ | ⟨-, err, herr⟩
    · have hfail := Except.ok.inj (hans.symm.trans hr)
      obtain ⟨pre, name, post, hnames, hpre, hstops, hb⟩ :=
        State.seed_error (show x.seed accessor s.escaper kind names? item =
          ((s.alter (.seed accessor item kind names?) x).1, .error e) from Prod.ext rfl hfail)
      refine ⟨pre, name, post, x, _, hx, hat, hnames, ?_, hstops, hb⟩
      rw [carryOut_eq]
      have hlevel : s.alter (.seed accessor item kind (some pre)) x =
          ((s.alter (.seed accessor item kind names?) x).1, .ok ()) := hpre
      refine Prod.ext ?_ ?_
      · show { s with state := (s.state.editAt scope _).1 } =
          { s with state := (s.state.editAt scope _).1 }
        rw [State.editAt_congr scope hx (Prod.ext_iff.1 hlevel).1]
      · rcases State.editAt_cases scope (s.alter (.seed accessor item kind (some pre))) s.state with
          ⟨y, hy, hok, -⟩ | ⟨hnone, -⟩
        · cases hx.symm.trans hy
          exact hok.trans (congrArg Except.ok (Prod.ext_iff.1 hlevel).2)
        · cases hx.symm.trans hnone
    · rw [show (s.respond (.change scope (.seed accessor item kind names?))).2 = .error err from
        congrArg Prod.snd herr] at hr
      cases hr

/-- An item that has one row and fails on `x` in that row, so the template `r` cannot be bound. -/
def failingRow : Accessor Nat := fun item name =>
  if name = ['r'] then .ok (.items [item]) else .error (.failed name "no".toList)

/-- Items that have no rows and fail on `y`. -/
def failingEnd : Accessor Nat := fun _ name =>
  if name = ['r'] then .ok (.items []) else .error (.failed name "no".toList)

/-- Binding `r` fails inside its repetition, and seeding binds `r` before it fails on `y`. -/
theorem carryOut_failed_rows :
    ((new rows).carryOut (.change [] (.populate failingRow ['r'] [0] .html none))).1 = new rows ∧
    ∃ s' e, (new rows).carryOut (.change [] (.seed failingEnd 0 .html none)) =
        (s', .ok (.error e)) ∧
      (new rows).carryOut (.change [] (.seed failingEnd 0 .html (some [['r']]))) =
        (s', .ok (.ok ())) := by
  obtain ⟨heq, hkeep, hseed⟩ := carryOut_failed (new rows)
  refine ⟨hkeep _ rfl ?_, ?_⟩
  · have hfail : ∃ s', (new rows).respond (.change [] (.populate failingRow ['r'] [0] .html none)) =
        (s', .ok (.error (.access (.failed ['x'] "no".toList)))) := ⟨_, by cbv⟩
    obtain ⟨s', hs'⟩ := hfail
    rw [heq, hs']
    intro h
    cases h
  · have hfail : ((new rows).carryOut (.change [] (.seed failingEnd 0 .html none))).2 =
        .ok (.error (.access (.failed ['y'] "no".toList))) := by
      rw [heq]
      rfl
    obtain ⟨pre, name, post, x, x', hx, -, hnames, hpre, -⟩ :=
      hseed [] Nat failingEnd 0 .html none _ _ (Prod.ext rfl hfail)
    refine ⟨_, _, Prod.ext rfl hfail, ?_⟩
    cases hx
    cases pre with
    | nil =>
      rw [heq, heq] at hpre
      have hopen : ([] : List Text) = [['r']] :=
        congrArg (fun p => p.1.state.resolved) hpre
      cases hopen
    | cons first pre =>
      obtain ⟨rfl, hrest⟩ := List.cons.inj (show ['r'] :: [['y']] = first :: (pre ++ name :: post)
        from hnames)
      cases pre with
      | nil => exact hpre
      | cons => simp at hrest

end Session

end Stencil
