import Stencil.Proofs.Session.Bindings

/-!
# Seeding and rendering

**Complete states** (`State.Complete`). A state can be rendered exactly if every name on every level
is resolved (`State.firstUnresolved?_eq_none_iff`).

**New levels** (`State.render_of_grow`, `State.exists_grow_of_fits`). A level that is seeded from an
item and complete has the text of its template for that item, and the item fits the template; from
an item that fits, a complete level can be seeded. Both go by induction on the levels of the
template: the items of a nested template are those that its own levels are seeded from.

**Sessions** (`Session.renderSeeded_iff`). So seeding a session and rendering it is evaluation.
-/

namespace Stencil

/-- Lists whose members have the same texts, one by one, have the same text. -/
theorem flatMap_eq_of_forall₂ {α β γ : Type} {R : α → β → Prop} {xs : List α} {ys : List β}
    {f : α → List γ} {g : β → List γ} (h : List.Forall₂ R xs ys)
    (hfg : ∀ x, ∀ y ∈ ys, R x y → g y = f x) : ys.flatMap g = xs.flatMap f := by
  induction h with
  | nil => rfl
  | @cons x y xs ys hxy _ ih =>
    rw [List.flatMap_cons, List.flatMap_cons, hfg x y List.mem_cons_self hxy,
      ih fun x y hy => hfg x y (List.mem_cons_of_mem _ hy)]

namespace State

variable {s : State} {t : Template}

/-! ## Complete states -/

/-- Every name on this level and below is resolved. -/
inductive Complete : State → Prop
  | mk {s : State} (names : ∀ name ∈ s.template.names, name ∈ s.resolved)
      (children : ∀ name ∈ s.template.names, ∀ c ∈ s.childrenOf name, Complete c) : Complete s

theorem Complete.names (h : s.Complete) : ∀ name ∈ s.template.names, name ∈ s.resolved := by
  cases h
  assumption

theorem Complete.children (h : s.Complete) :
    ∀ name ∈ s.template.names, ∀ c ∈ s.childrenOf name, c.Complete := by
  cases h
  assumption

theorem firstUnresolvedFrom?_eq_none_iff (path : Text) (s : State) :
    s.firstUnresolvedFrom? path = none ↔ s.Complete := by
  have hinner : ∀ name, ((s.childrenOf name).zipIdx.findSome? fun e =>
      e.1.firstUnresolvedFrom? (enter path name e.2)) = none ↔
        ∀ c ∈ s.childrenOf name, c.Complete := by
    intro name
    rw [List.findSome?_eq_none_iff]
    constructor
    · intro h c hc
      obtain ⟨i, hi⟩ := List.getElem?_of_mem hc
      exact (firstUnresolvedFrom?_eq_none_iff _ c).1
        (h (c, i) (List.mem_zipIdx_iff_getElem?.2 hi))
    · intro h (c, i) he
      have hc : c ∈ s.childrenOf name := List.fst_mem_of_mem_zipIdx he
      exact (firstUnresolvedFrom?_eq_none_iff _ c).2 (h c hc)
  rw [firstUnresolvedFrom?_eq, List.findSome?_eq_none_iff]
  constructor
  · intro h
    have hres : ∀ name ∈ s.template.names, s.isResolved name = true := by
      intro name hname
      by_contra hr
      have hopen := h name hname
      rw [if_neg hr] at hopen
      cases hopen
    refine .mk (fun name hname => List.contains_iff_mem.1 (hres name hname)) fun name hname => ?_
    have hbelow := h name hname
    rw [if_pos (hres name hname)] at hbelow
    exact (hinner name).1 hbelow
  · intro h name hname
    rw [isResolved, if_pos (List.contains_iff_mem.2 (h.names name hname))]
    exact (hinner name).2 (h.children name hname)
termination_by sizeOf s
decreasing_by all_goals exact sizeOf_lt_of_mem_childrenOf ‹_›

/-- **Nothing is open exactly if the state is complete.** -/
theorem firstUnresolved?_eq_none_iff : s.firstUnresolved? = none ↔ s.Complete :=
  firstUnresolvedFrom?_eq_none_iff [] s

/-! ## Rendering -/

/-- A state is rendered part by part. -/
theorem render_eq (s : State) : s.render = s.template.parts.zipIdx.flatMap fun (part, i) =>
    match part with
    | .text content => content
    | .var _ _ _ => (s.slot i).getD []
    | .nested name _ _ _ => (s.childrenOf name).flatMap render := by
  unfold render
  rw [chunks, List.flatten_eq_flatMap, List.flatMap_assoc]
  refine List.flatMap_congr fun (part, i) _ => ?_
  cases part with
  | text content => exact List.append_nil content
  | var name own raw =>
    cases hs : s.slot i with
    | none => simp [hs]
    | some text => simp [hs]
  | nested name form stamp body =>
    dsimp only
    rw [List.flatMap_assoc]
    simp [List.flatMap_subtype]

/-! ## New levels -/

section Growing

variable {σ : Type} {accessor : Accessor σ} {escaper : Escaper} {kind : EscapeKind} {item : σ}

/-- Only nested templates have children. -/
theorem Consistent.nested_of_child {name : Text} {c : State} (h : s.Consistent)
    (hc : c ∈ s.childrenOf name) : ∃ n ∈ s.template.nestedList, n.name = name := by
  unfold childrenOf at hc
  cases hg : Table.get? s.children name with
  | none =>
    rw [hg] at hc
    cases hc
  | some cs => exact h.children_names name cs hg

/-- A new level is seeded from its item. -/
theorem seededFor_of_grow (hw : t.WellNamed) (h : grow accessor escaper kind t none item = .ok s) :
    SeededFor accessor escaper kind item t s := by
  have hkeep : SeededFor accessor escaper kind item t
      (bindNames (seedName accessor escaper kind t item) (.new t) t.names).1 :=
    bindNames_keeps (fun s name s' hs hb => hs.seedName_ok hw hb) t.names (seededFor_new t)
  have hseed := (grow_eq_ok_iff none).1 h
  rw [Option.getD_none] at hseed
  rw [hseed] at hkeep
  exact hkeep

/-- An item fits the level that is seeded from it, once all its names are resolved. -/
theorem Seeded.fitsLevel (h : Seeded accessor escaper kind item s) (hs : s.Consistent)
    (hnames : ∀ name ∈ s.template.names, name ∈ s.resolved) :
    FitsLevel accessor.reading escaper kind item s.template where
  texts := by
    intro name own raw hp
    obtain ⟨i, hi⟩ := List.getElem?_of_mem hp
    have hname : name ∈ s.template.names := Template.mem_names.2 ⟨_, hp, rfl⟩
    obtain ⟨ts, hts, htakes, -⟩ := h.texts i name own raw hi (hnames name hname)
    exact ⟨ts, hts, htakes⟩
  items := by
    intro n hn
    obtain ⟨xs, hxs, -⟩ := h.items n hn (hnames _ (Template.mem_names_of_nested hn))
    exact ⟨xs, hxs⟩
  counts := by
    intro n hn m hm id hnid hmid xs ys hxs hys
    have hnr := hnames _ (Template.mem_names_of_nested hn)
    have hmr := hnames _ (Template.mem_names_of_nested hm)
    obtain ⟨xs', hxs', hgrown⟩ := h.items n hn hnr
    obtain ⟨ys', hys', hgrown'⟩ := h.items m hm hmr
    cases hxs.symm.trans hxs'
    cases hys.symm.trans hys'
    have hid : n.template.id = m.template.id := by
      unfold Template.id Stamp.id
      rw [hnid, hmid]
      rfl
    have hcount := hs.repeated_eq n hn hnr
    rw [hid, hs.repeated_eq m hm hmr] at hcount
    rw [hgrown.length_eq, hgrown'.length_eq, Option.some.inj hcount]

/-- A seeded level has the text of its template, if the levels below it do. -/
theorem Seeded.render_eq (h : Seeded accessor escaper kind item s)
    (hnames : ∀ name ∈ s.template.names, name ∈ s.resolved)
    (hinside : ∀ n ∈ s.template.nestedList, ∀ x, ∀ c ∈ s.childrenOf n.name,
      grow accessor escaper kind n.template none x = .ok c →
        c.render = n.template.evaluate accessor.reading escaper kind x) :
    s.render = s.template.evaluate accessor.reading escaper kind item := by
  have hparts : s.template.evaluate accessor.reading escaper kind item =
      s.template.parts.zipIdx.flatMap fun p =>
        Part.evaluate accessor.reading escaper kind item p.1 := by
    unfold Template.evaluate
    rw [Part.evaluateAll_eq_flatMap, ← List.flatMap_map Prod.fst, List.zipIdx_map_fst]
  rw [hparts, State.render_eq]
  refine List.flatMap_congr fun (part, i) hpart => ?_
  have hi : s.template.parts[i]? = some part := List.mem_zipIdx_iff_getElem?.1 hpart
  have hmem := List.mem_of_getElem? hi
  dsimp only
  cases part with
  | text content => rw [Part.evaluate]
  | var name own raw =>
    have hr := hnames name (Template.mem_names.2 ⟨_, hmem, rfl⟩)
    obtain ⟨ts, hts, -, hslot⟩ := h.texts i name own raw hi hr
    rw [Part.evaluate, hts]
    exact congrArg (·.getD []) hslot
  | nested name form stamp body =>
    have hr := hnames name (Template.mem_names.2 ⟨_, hmem, rfl⟩)
    have hn : ⟨name, form, stamp, body⟩ ∈ s.template.nestedList :=
      List.mem_filterMap.2 ⟨_, hmem, rfl⟩
    obtain ⟨xs, hxs, hgrown⟩ := h.items _ hn hr
    rw [Part.evaluate, hxs]
    exact flatMap_eq_of_forall₂ hgrown (hinside _ hn)

/-- **A level that is seeded from an item and complete has the text of its template for it**, and
the item fits. -/
theorem render_of_grow (hw : t.WellNamed) (h : grow accessor escaper kind t none item = .ok s)
    (hc : s.Complete) : Fits accessor.reading escaper kind item t ∧
      s.render = t.evaluate accessor.reading escaper kind item := by
  induction hw generalizing item s with
  | @mk t apart inside ih =>
    obtain ⟨⟨hs, rfl⟩, hseeded⟩ := seededFor_of_grow (.mk apart inside) h
    refine ⟨.mk (hseeded.fitsLevel hs.level hc.names) fun n hn xs hxs x hx => ?_,
      hseeded.render_eq hc.names fun n hn x c hmem hxc => ?_⟩
    · have hname := Template.mem_names_of_nested hn
      obtain ⟨ys, hys, hgrown⟩ := hseeded.items n hn (hc.names _ hname)
      cases hxs.symm.trans hys
      obtain ⟨c, hmem, hxc⟩ := exists_of_forall₂ hgrown hx
      exact (ih n hn hxc (hc.children _ hname c hmem)).1
    · exact (ih n hn hxc (hc.children _ (Template.mem_names_of_nested hn) c hmem)).2

end Growing

end State

/-! ## Sessions -/

namespace Session

variable {s : Session} {t : Template} {escaper : Escaper} {kind : EscapeKind}

/-- Seeds the root from an item, over all its names, and renders the session. -/
def renderSeeded {σ : Type} (s : Session) (accessor : Accessor σ) (item : σ) (kind : EscapeKind) :
    Except BindError Text :=
  match s.edit (s.seed accessor item kind none) with
  | (s, .ok ()) => s.render
  | (_, .error e) => .error e

/-- Seeds the root from data and renders the session. -/
def renderData (s : Session) (data : Datum) : Except BindError Text :=
  match s.seedData data with
  | (s, .ok ()) => s.render
  | (_, .error e) => .error e

theorem render_eq_ok_iff {out : Text} :
    s.render = .ok out ↔ s.state.Complete ∧ s.state.render = out := by
  unfold render
  rw [← State.firstUnresolved?_eq_none_iff]
  cases s.state.firstUnresolved? <;> simp

/-- A session that seeds its root seeds a new level. -/
theorem renderSeeded_eq_ok_iff {σ : Type} {accessor : Accessor σ} {item : σ} {k : EscapeKind}
    {out : Text} : renderSeeded ⟨.new t, escaper, kind⟩ accessor item k = .ok out ↔
      ∃ s, State.grow accessor escaper k t none item = .ok s ∧ s.Complete ∧ s.render = out := by
  simp only [State.grow_eq_ok_iff, Option.getD_none]
  unfold renderSeeded edit seed State.seed
  show (match ({ state := (State.bindNames (State.seedName accessor escaper k t item) (.new t)
      t.names).1, escaper, kind : Session }, (State.bindNames (State.seedName accessor escaper k t
      item) (.new t) t.names).2) with
    | (s, .ok ()) => s.render
    | (_, .error e) => .error e) = Except.ok out ↔ _
  cases State.bindNames (State.seedName accessor escaper k t item) (.new t) t.names with
  | mk s r =>
    cases r with
    | ok _ => simp [render_eq_ok_iff]
    | error e => simp

end Session

end Stencil
