import Stencil.Proofs.Session.Failure

/-!
# The order of filling

**Effects** (`Effect`). Whether one name of a level can be filled depends on the level, but what is
then written for it does not: texts at the positions of a variable, the states of a nested template,
or nothing. `Writes` says that a step has an effect, and every step that succeeds has one
(`fills_setVariable`, `fills_populateWith`, `fills_seedName`).

**Two steps** (`Effect.swap`). Steps for different names write at different places. They share only
the number of repetitions of a source, and the one that comes second has agreed to the number of the
one before it.

**Many steps** (`runAll_perm`). Hence steps that succeed in one order succeed in every order, and
the levels they leave are the same but for the order inside their tables (`Level`).

**Passes** (`Session.filling_order`). A list of changes can be reordered; a level can be seeded in
two passes; and so can the repetitions of a nested template, the second pass scope by scope.
-/

namespace Stencil

namespace State

/-! ## Same states -/

/-- The states bind the same on this level and have the same levels below. -/
structure Level (s s' : State) : Prop where
  template : s.template = s'.template
  slots : s.slots = s'.slots
  children : ∀ name, Table.get? s.children name = Table.get? s'.children name
  resolved : ∀ name, name ∈ s.resolved ↔ name ∈ s'.resolved
  repetitions : ∀ id, Table.get? s.repetitions id = Table.get? s'.repetitions id

/-- The states bind the same on every level: the tables have the same for every key, and of the list
of resolved names only its members count. -/
inductive Same : State → State → Prop
  | mk {s s' : State} (template : s.template = s'.template) (slots : s.slots = s'.slots)
      (resolved : ∀ name, name ∈ s.resolved ↔ name ∈ s'.resolved)
      (repetitions : ∀ id, Table.get? s.repetitions id = Table.get? s'.repetitions id)
      (populated : ∀ name, Table.has s.children name = Table.has s'.children name)
      (counts : ∀ name, (s.childrenOf name).length = (s'.childrenOf name).length)
      (below : ∀ (name : Text) (i : Nat) (c c' : State), (s.childrenOf name)[i]? = some c →
        (s'.childrenOf name)[i]? = some c' → Same c c') : Same s s'

variable {s s' s'' r : State} {t : Template}

theorem Level.refl (s : State) : Level s s :=
  ⟨rfl, rfl, fun _ => rfl, fun _ => Iff.rfl, fun _ => rfl⟩

theorem Level.trans (h : Level s s') (h' : Level s' s'') : Level s s'' :=
  ⟨h.template.trans h'.template, h.slots.trans h'.slots,
    fun name => (h.children name).trans (h'.children name),
    fun name => (h.resolved name).trans (h'.resolved name),
    fun id => (h.repetitions id).trans (h'.repetitions id)⟩

theorem Level.childrenOf (h : Level s s') (name : Text) : s.childrenOf name = s'.childrenOf name :=
  congrArg (·.getD []) (h.children name)

theorem Level.has (h : Level s s') (name : Text) :
    Table.has s.children name = Table.has s'.children name :=
  congrArg Option.isSome (h.children name)

/-- Every state is the same as itself, by induction on the levels below. -/
theorem Same.refl (s : State) : Same s s := by
  refine .mk rfl rfl (fun _ => Iff.rfl) (fun _ => rfl) (fun _ => rfl) (fun _ => rfl)
    fun name i c c' hc hc' => ?_
  have hlt := sizeOf_lt_of_mem_childrenOf (List.mem_of_getElem? hc)
  cases hc.symm.trans hc'
  exact Same.refl c
termination_by sizeOf s

theorem Level.same (h : Level s s') : Same s s' := by
  refine .mk h.template h.slots h.resolved h.repetitions h.has
    (fun name => congrArg List.length (h.childrenOf name)) fun name i c c' hc hc' => ?_
  rw [h.childrenOf name, hc'] at hc
  cases hc
  exact .refl _

/-! ## Effects -/

/-- What is written to a level when one of its names is filled. -/
inductive Effect where
  | nothing
  | fill (name : Text) (texts : List (Nat × Text))
  | bind (n : Nested) (states : List State)

namespace Effect

def apply : Effect → State → State
  | .nothing, s => s
  | .fill name texts, s => s.filled name texts
  | .bind n states, s => s.populated n states

/-- What a level must be like for the effect to be had. -/
def Fits : Effect → State → Prop
  | .nothing, _ => True
  | .fill name texts, s =>
    name ∉ s.resolved ∧ ∀ i ∈ texts.map Prod.fst, i ∈ s.template.positions name
  | .bind n states, s =>
    n.name ∉ s.resolved ∧ ∀ k, Table.get? s.repetitions n.template.id = some k → k = states.length

variable {a b : Effect}

@[simp] theorem apply_template : (a.apply s).template = s.template := by
  cases a <;> rfl

theorem Fits.congr (h : Level s s') (ha : a.Fits s) : a.Fits s' := by
  cases a with
  | nothing => trivial
  | fill name texts =>
    exact ⟨fun hr => ha.1 ((h.resolved name).2 hr), h.template ▸ ha.2⟩
  | bind n states =>
    exact ⟨fun hr => ha.1 ((h.resolved n.name).2 hr), fun k hk => ha.2 k (h.repetitions _ ▸ hk)⟩

theorem mem_resolved_congr (h : Level s s') (name other : Text) :
    other ∈ s.resolved ++ [name] ↔ other ∈ s'.resolved ++ [name] := by
  rw [List.mem_append, List.mem_append, h.resolved]

theorem apply_congr (h : Level s s') : Level (a.apply s) (a.apply s') := by
  cases a with
  | nothing => exact h
  | fill name texts =>
    exact ⟨h.template, congrArg (texts.foldl _) h.slots, h.children, mem_resolved_congr h name,
      h.repetitions⟩
  | bind n states =>
    refine ⟨h.template, h.slots, fun name => ?_, mem_resolved_congr h n.name, fun id => ?_⟩
    · show Table.get? (Table.set _ _ _) _ = Table.get? (Table.set _ _ _) _
      rw [Table.get?_set, Table.get?_set, h.children]
    · show Table.get? (Table.set _ _ _) _ = Table.get? (Table.set _ _ _) _
      rw [Table.get?_set, Table.get?_set, h.repetitions]

/-- Texts that are set at different places can be set in either order. -/
theorem foldl_set_comm (xs ys : List (Nat × Text)) (slots : List (Option Text))
    (h : ∀ i ∈ xs.map Prod.fst, i ∉ ys.map Prod.fst) :
    ys.foldl (fun slots (i, text) => slots.set i (some text))
        (xs.foldl (fun slots (i, text) => slots.set i (some text)) slots) =
      xs.foldl (fun slots (i, text) => slots.set i (some text))
        (ys.foldl (fun slots (i, text) => slots.set i (some text)) slots) := by
  have hone : ∀ (x : Nat × Text) (ys : List (Nat × Text)) (slots : List (Option Text)),
      x.1 ∉ ys.map Prod.fst →
        ys.foldl (fun slots (i, text) => slots.set i (some text)) (slots.set x.1 (some x.2)) =
          (ys.foldl (fun slots (i, text) => slots.set i (some text)) slots).set x.1
            (some x.2) := by
    intro x ys
    induction ys with
    | nil => exact fun _ _ => rfl
    | cons y ys ih =>
      intro slots hx
      rw [List.map_cons, List.mem_cons, not_or] at hx
      have hxy := List.set_comm (some x.2) (some y.2) hx.1 (l := slots)
      rw [List.foldl_cons, List.foldl_cons]
      dsimp only
      rw [← ih _ hx.2, hxy]
  induction xs generalizing slots with
  | nil => rfl
  | cons x xs ih =>
    rw [List.foldl_cons, List.foldl_cons, ih _ fun i hi => h i (List.mem_cons_of_mem _ hi)]
    exact congrArg (fun slots => xs.foldl _ slots) (hone x ys slots (h _ List.mem_cons_self))

/-- Names that are resolved in either order. -/
theorem mem_append_swap (names : List Text) (name name' other : Text) :
    other ∈ names ++ [name] ++ [name'] ↔ other ∈ names ++ [name'] ++ [name] := by
  rw [List.append_assoc, List.append_assoc]
  exact ((List.Perm.swap name' name []).append_left names).mem_iff

theorem notMem_append {names : List Text} {name name' : Text} (h : name' ∉ names ++ [name]) :
    name' ∉ names ∧ name' ≠ name := by
  rwa [List.mem_append, List.mem_singleton, not_or] at h

/-- A name that is not resolved and is another one is not resolved after one more. -/
theorem notMem_append_of_ne {names : List Text} {name name' : Text} (h : name ∉ names)
    (hne : name' ≠ name) : name ∉ names ++ [name'] := by
  rw [List.mem_append, List.mem_singleton, not_or]
  exact ⟨h, Ne.symm hne⟩

/-- **Two names can be filled in either order.** -/
theorem swap (ha : a.Fits s) (hb : b.Fits (a.apply s)) :
    b.Fits s ∧ a.Fits (b.apply s) ∧ Level (b.apply (a.apply s)) (a.apply (b.apply s)) := by
  cases a with
  | nothing => exact ⟨hb, trivial, .refl _⟩
  | fill name texts =>
    cases b with
    | nothing => exact ⟨trivial, ha, .refl _⟩
    | fill name' texts' =>
      obtain ⟨hr, hne⟩ := notMem_append hb.1
      refine ⟨⟨hr, hb.2⟩, ⟨notMem_append_of_ne ha.1 hne, ha.2⟩, rfl, ?_, fun _ => rfl,
        mem_append_swap _ _ _, fun _ => rfl⟩
      exact foldl_set_comm texts texts' s.slots fun i hi hi' =>
        hne (Template.eq_of_mem_positions (hb.2 i hi') (ha.2 i hi))
    | bind n' states' =>
      obtain ⟨hr, hne⟩ := notMem_append hb.1
      exact ⟨⟨hr, hb.2⟩, ⟨notMem_append_of_ne ha.1 hne, ha.2⟩, rfl, rfl, fun _ => rfl,
        mem_append_swap _ _ _, fun _ => rfl⟩
  | bind n states =>
    cases b with
    | nothing => exact ⟨trivial, ha, .refl _⟩
    | fill name' texts' =>
      obtain ⟨hr, hne⟩ := notMem_append hb.1
      exact ⟨⟨hr, hb.2⟩, ⟨notMem_append_of_ne ha.1 hne, ha.2⟩, rfl, rfl, fun _ => rfl,
        mem_append_swap _ _ _, fun _ => rfl⟩
    | bind n' states' =>
      obtain ⟨hr, hne⟩ := notMem_append hb.1
      -- The second number is the first if both are for the same source.
      have hsame : n'.template.id = n.template.id → states.length = states'.length := by
        intro hid
        refine hb.2 states.length ?_
        show Table.get? (Table.set _ _ _) _ = _
        rw [Table.get?_set, if_pos hid]
      have hother : ∀ k, n'.template.id ≠ n.template.id →
          Table.get? s.repetitions n'.template.id = some k → k = states'.length := by
        intro k hid hk
        refine hb.2 k ?_
        show Table.get? (Table.set _ _ _) _ = _
        rwa [Table.get?_set, if_neg hid]
      refine ⟨⟨hr, fun k hk => ?_⟩, ⟨notMem_append_of_ne ha.1 hne, fun k hk => ?_⟩, rfl, rfl,
        fun name => ?_, mem_append_swap _ _ _, fun id => ?_⟩
      · by_cases hid : n'.template.id = n.template.id
        · rw [← hsame hid]
          exact ha.2 k (hid ▸ hk)
        · exact hother k hid hk
      · change Table.get? (Table.set _ _ _) _ = _ at hk
        rw [Table.get?_set] at hk
        split at hk
        · rename_i hid
          rw [← Option.some.inj hk, hsame hid.symm]
        · exact ha.2 k hk
      · exact Table.get?_set_comm _ (fun hn => absurd hn.symm hne) name
      · exact Table.get?_set_comm _ (fun hid => hsame hid.symm) id

end Effect

/-! ## Steps -/

/-- A change of a level that may fail. -/
abbrev Step := State → Except BindError State

/-- On levels of the template the step has the effect, exactly if they fit. -/
def Writes (op : Step) (t : Template) (e : Effect) : Prop :=
  ∀ s s', s.template = t → (op s = .ok s' ↔ e.Fits s ∧ s' = e.apply s)

/-- The step has an effect that does not depend on what is bound. -/
def Fills (op : Step) : Prop := ∀ s s', op s = .ok s' → ∃ e, Writes op s.template e

theorem fills_setVariable (escaper : Escaper) (name : Text) (fragments : List Text)
    (kind : EscapeKind) : Fills (setVariable escaper name fragments kind) := by
  intro s s' h
  obtain ⟨hv, -⟩ := setVariable_ok h
  unfold setVariable at h
  rw [hv, Bool.not_true, if_neg Bool.false_ne_true] at h
  split at h
  · cases h
  obtain ⟨texts, htexts, -⟩ := map_eq_ok h
  refine ⟨.fill name texts, fun x x' hx => ?_⟩
  rw [← hx] at hv htexts
  have hpos : ∀ i ∈ texts.map Prod.fst, i ∈ x.template.positions name := by
    rw [map_fst_of_fill htexts]
    exact fun i hi => hi
  unfold setVariable isResolved
  rw [hv, htexts, Bool.not_true, if_neg Bool.false_ne_true]
  by_cases hr : name ∈ x.resolved
  · rw [if_pos (List.contains_iff_mem.2 hr)]
    exact ⟨nofun, fun h => absurd hr h.1.1⟩
  · rw [if_neg fun h => hr (List.contains_iff_mem.1 h)]
    exact ⟨fun h => ⟨⟨hr, hpos⟩, (Except.ok.inj h).symm⟩, fun h => congrArg Except.ok h.2.symm⟩

theorem fills_populateWith {σ : Type} (n : Nested) (grow : σ → Except BindError State)
    (items : List σ) (names? : Option (List Text)) : Fills (populateWith n grow items names?) := by
  intro s s' h
  obtain ⟨states, hstates, -⟩ := populateWith_ok h
  have hlen := (mapM_ok hstates).length_eq
  unfold populateWith at h
  split at h
  · cases h
  split at h
  · cases h
  split at h
  · cases h
  rename_i hnames
  refine ⟨.bind n states, fun x x' _ => ?_⟩
  unfold populateWith isResolved
  by_cases hr : n.name ∈ x.resolved
  · rw [if_pos (List.contains_iff_mem.2 hr)]
    constructor
    · intro h
      cases h
    · exact fun h => absurd hr h.1.1
  rw [if_neg fun h => hr (List.contains_iff_mem.1 h), hnames, hstates, hlen]
  split
  · rename_i k hk
    obtain ⟨hk, hne⟩ := Option.filter_eq_some_iff.1 hk
    constructor
    · intro h
      cases h
    · exact fun h => absurd (h.1.2 k hk) (by simpa using hne)
  · rename_i hk
    rw [Option.filter_eq_none_iff] at hk
    exact ⟨fun h => ⟨⟨hr, fun k hget => by simpa using hk k hget⟩, (Except.ok.inj h).symm⟩,
      fun h => congrArg Except.ok h.2.symm⟩

theorem fills_populate {σ : Type} (accessor : Accessor σ) (escaper : Escaper) (kind : EscapeKind)
    (name : Text) (items : List σ) (names? : Option (List Text)) :
    Fills (populate accessor escaper kind name items names?) := by
  intro s s' h
  unfold populate at h
  split at h
  · cases h
  rename_i n hn
  obtain ⟨e, he⟩ := fills_populateWith n _ items names? s s' h
  refine ⟨e, fun x x' hx => ?_⟩
  unfold populate
  rw [hx, hn]
  exact he x x' hx

/-- A step that asks first either does nothing or what one step does, on whatever level. -/
theorem fills_of_ask {α : Type} {op : Step} {absent : Prop} {found : α → Prop} {k : α → Step}
    (hop : ∀ s s', op s = .ok s' ↔ (absent ∧ s' = s) ∨ ∃ a, found a ∧ k a s = .ok s')
    (hfound : ∀ a, found a → ¬absent) (hone : ∀ a b, found a → found b → a = b)
    (hk : ∀ a, Fills (k a)) : Fills op := by
  intro s s' h
  rcases (hop s s').1 h with ⟨habs, -⟩ | ⟨a, ha, hka⟩
  · refine ⟨.nothing, fun x x' _ => (hop x x').trans ⟨fun h => ?_, fun h => .inl ⟨habs, h.2⟩⟩⟩
    rcases h with h | ⟨a, ha, -⟩
    · exact ⟨trivial, h.2⟩
    · exact absurd habs (hfound a ha)
  · obtain ⟨e, he⟩ := hk a s s' hka
    refine ⟨e, fun x x' hx => (hop x x').trans ⟨fun h => ?_, fun h => ?_⟩⟩
    · rcases h with h | ⟨b, hb, hkb⟩
      · exact absurd h.1 (hfound a ha)
      · cases hone a b ha hb
        exact (he x x' hx).1 hkb
    · exact .inr ⟨a, ha, (he x x' hx).2 h⟩

theorem fills_seedName {σ : Type} (accessor : Accessor σ) (escaper : Escaper) (kind : EscapeKind)
    (t : Template) (item : σ) (name : Text) :
    Fills fun s => seedName accessor escaper kind t item s name := by
  rcases hv : t.hasVariable name with _ | _
  · cases hn : t.nested? name with
    | none =>
      intro s s' h
      rcases Template.mem_names_cases (mem_names_of_bindName h) with hv' | ⟨n, hmem, rfl⟩
      · rw [hv] at hv'
        cases hv'
      · have hsome := Template.hasNested_iff.1 (Template.hasNested_of_mem hmem)
        rw [hn] at hsome
        cases hsome
    | some n =>
      refine fills_of_ask (fun s s' => bindName_nested_iff hv hn) (fun xs hxs habs => ?_)
        (fun xs ys hxs hys => Option.some.inj (hxs.symm.trans hys)) fun xs =>
          fills_populateWith n _ xs none
      obtain ⟨v, hask, hitems⟩ := reading_items_iff.1 hxs
      cases habs.symm.trans hask
      cases hitems
  · refine fills_of_ask (fun s s' => bindName_variable_iff hv) (fun ts hts habs => ?_)
      (fun ts us hts hus => Option.some.inj (hts.symm.trans hus)) fun ts =>
        fills_setVariable escaper name ts kind
    obtain ⟨v, hask, htexts⟩ := reading_texts_iff.1 hts
    cases habs.symm.trans hask
    cases htexts

/-- A step has the same outcome on levels that bind the same. -/
theorem Fills.congr {op : Step} (hop : Fills op) (h : Level s r) (hs : op s = .ok s') :
    ∃ r', op r = .ok r' ∧ Level s' r' := by
  obtain ⟨e, he⟩ := hop s s' hs
  obtain ⟨hfits, rfl⟩ := (he s s' rfl).1 hs
  exact ⟨e.apply r, (he r _ h.template.symm).2 ⟨hfits.congr h, rfl⟩, Effect.apply_congr h⟩

/-- Two steps that succeed one after the other succeed the other way round. -/
theorem Fills.swap {op op' : Step} (hop : Fills op) (hop' : Fills op') (h : op s = .ok s')
    (h' : op' s' = .ok s'') :
    ∃ r r', op' s = .ok r ∧ op r = .ok r' ∧ Level s'' r' := by
  obtain ⟨a, ha⟩ := hop s s' h
  obtain ⟨hfits, rfl⟩ := (ha s s' rfl).1 h
  obtain ⟨b, hb⟩ := hop' _ s'' h'
  rw [Effect.apply_template] at hb
  obtain ⟨hfits', rfl⟩ := (hb _ s'' Effect.apply_template).1 h'
  obtain ⟨hbs, has, hlevel⟩ := Effect.swap hfits hfits'
  exact ⟨b.apply s, a.apply (b.apply s), (hb s _ rfl).2 ⟨hbs, rfl⟩,
    (ha _ _ Effect.apply_template).2 ⟨has, rfl⟩, hlevel⟩

/-- Steps one after another, up to the first that fails. -/
def runAll : List Step → Step
  | [], s => .ok s
  | op :: ops, s => op s >>= runAll ops

theorem runAll_congr {ops : List Step} (hops : ∀ op ∈ ops, Fills op) (h : Level s r)
    (hs : runAll ops s = .ok s') : ∃ r', runAll ops r = .ok r' ∧ Level s' r' := by
  induction ops generalizing s r with
  | nil =>
    cases hs
    exact ⟨r, rfl, h⟩
  | cons op ops ih =>
    obtain ⟨s₁, h₁, hs⟩ := bind_eq_ok hs
    obtain ⟨r₁, hr₁, hlevel⟩ := (hops op List.mem_cons_self).congr h h₁
    rw [runAll, hr₁]
    exact ih (fun op hop => hops op (List.mem_cons_of_mem _ hop)) hlevel hs

/-- **Steps that succeed in one order succeed in every order**, and leave the same. -/
theorem runAll_perm {ops ops' : List Step} (hp : ops.Perm ops') (hops : ∀ op ∈ ops, Fills op)
    (hs : runAll ops s = .ok s') : ∃ r', runAll ops' s = .ok r' ∧ Level s' r' := by
  induction hp generalizing s s' with
  | nil => exact ⟨s', hs, .refl s'⟩
  | cons op _ ih =>
    obtain ⟨s₁, h₁, hs⟩ := bind_eq_ok hs
    rw [runAll, h₁]
    exact ih (fun op hop => hops op (List.mem_cons_of_mem _ hop)) hs
  | swap op op' ops =>
    obtain ⟨s₁, h₁, hs⟩ := bind_eq_ok hs
    obtain ⟨s₂, h₂, hs⟩ := bind_eq_ok hs
    obtain ⟨r₁, r₂, hr₁, hr₂, hlevel⟩ := (hops op' List.mem_cons_self).swap
      (hops op (List.mem_cons_of_mem _ List.mem_cons_self)) h₁ h₂
    rw [runAll, hr₁, ok_bind, runAll, hr₂]
    exact runAll_congr (fun op hop => hops op (List.mem_cons_of_mem _ (List.mem_cons_of_mem _ hop)))
      hlevel hs
  | trans hp₁ hp₂ ih₁ ih₂ =>
    obtain ⟨s₁, h₁, hlevel₁⟩ := ih₁ hops hs
    obtain ⟨s₂, h₂, hlevel₂⟩ := ih₂ (fun op hop => hops op (hp₁.mem_iff.2 hop)) h₁
    exact ⟨s₂, h₂, hlevel₁.trans hlevel₂⟩

/-! ## Seeding in passes -/

section Seeding

variable {σ : Type} {accessor : Accessor σ} {escaper : Escaper} {kind : EscapeKind} {item : σ}
  {names L₁ L₂ : List Text}

/-- Different names are bound one after another, but for those that are resolved. -/
theorem bindNames_iff_runAll (hnd : names.Nodup) :
    bindNames (seedName accessor escaper kind t item) s names = (s', .ok ()) ↔
      runAll ((names.filter fun name => !s.isResolved name).map fun name s =>
        seedName accessor escaper kind t item s name) s = .ok s' := by
  induction names generalizing s with
  | nil => exact ⟨fun h => congrArg Except.ok (Prod.ext_iff.1 h).1, fun h => by cases h; rfl⟩
  | cons name rest ih =>
    rw [List.nodup_cons] at hnd
    unfold bindNames
    by_cases hr : s.isResolved name = true
    · rw [if_pos hr, List.filter_cons_of_neg (by simp [hr])]
      exact ih hnd.2
    · rw [if_neg hr, List.filter_cons_of_pos (by simp [hr]), List.map_cons, runAll]
      cases hb : seedName accessor escaper kind t item s name with
      | error e => constructor <;> intro h <;> cases h
      | ok s₁ =>
        -- The names behind are resolved if they were before this one.
        have hrest : (rest.filter fun other => !s.isResolved other) =
            rest.filter fun other => !s₁.isResolved other := by
          refine List.filter_congr fun other hother => ?_
          have hne : other ≠ name := fun he => hnd.1 (he ▸ hother)
          have hun := (untouched_seedName hb hne).resolved
          rw [isResolved, isResolved, Bool.eq_iff_iff]
          simp [hun]
        rw [hrest]
        exact ih hnd.2

theorem bindNames_append {bind : State → Text → Except BindError State} :
    bindNames bind s (L₁ ++ L₂) = (s'', .ok ()) ↔
      ∃ s', bindNames bind s L₁ = (s', .ok ()) ∧ bindNames bind s' L₂ = (s'', .ok ()) := by
  induction L₁ generalizing s with
  | nil =>
    constructor
    · exact fun h => ⟨s, rfl, h⟩
    · rintro ⟨s', h, h'⟩
      cases h
      exact h'
  | cons name rest ih =>
    simp only [List.cons_append, bindNames]
    split
    · exact ih
    · split
      · exact ih
      · constructor
        · intro h
          cases h
        · rintro ⟨s', h, -⟩
          cases h

/-- **Names that can be bound in one pass can be bound in two.** -/
theorem bindNames_split (hnd : names.Nodup) (hp : (L₁ ++ L₂).Perm names)
    (h : bindNames (seedName accessor escaper kind t item) s names = (s', .ok ())) :
    ∃ s₁ s₂, bindNames (seedName accessor escaper kind t item) s L₁ = (s₁, .ok ()) ∧
      bindNames (seedName accessor escaper kind t item) s₁ L₂ = (s₂, .ok ()) ∧ Level s' s₂ := by
  have hfills : ∀ op ∈ (names.filter fun name => !s.isResolved name).map fun name s =>
      seedName accessor escaper kind t item s name, Fills op := by
    intro op hop
    obtain ⟨name, -, rfl⟩ := List.mem_map.1 hop
    exact fills_seedName accessor escaper kind t item name
  obtain ⟨s₂, h₂, hlevel⟩ := runAll_perm ((hp.symm.filter _).map _) hfills
    ((bindNames_iff_runAll hnd).1 h)
  obtain ⟨s₁, hs₁, hs₂⟩ := bindNames_append.1 ((bindNames_iff_runAll (hp.nodup_iff.2 hnd)).2 h₂)
  exact ⟨s₁, s₂, hs₁, hs₂, hlevel⟩

theorem template_seedName {name : Text}
    (h : seedName accessor escaper kind t item s name = .ok s') : s'.template = s.template := by
  rcases seedName_cases h with ⟨-, rfl⟩ | ⟨ts, hset⟩ | ⟨n, states, -, rfl⟩
  · rfl
  · obtain ⟨-, texts, -, rfl⟩ := setVariable_ok hset
    rfl
  · rfl

theorem template_bindNames
    (h : bindNames (seedName accessor escaper kind t item) s names = (s', .ok ())) :
    s'.template = s.template := by
  have hkeep : (bindNames (seedName accessor escaper kind t item) s names).1.template =
      s.template :=
    bindNames_keeps (P := fun x => x.template = s.template)
      (fun x name x' hx hb => (template_seedName hb).trans hx) names rfl
  rwa [h] at hkeep

/-- New levels that can be grown in one pass can be grown and then seeded. -/
theorem rows_split (hp : (L₁ ++ L₂).Perm t.names) {items : List σ} {states : List State}
    (h : items.mapM (grow accessor escaper kind t none) = .ok states) :
    ∃ rows : List (State × State),
      items.mapM (grow accessor escaper kind t (some L₁)) = .ok (rows.map Prod.fst) ∧
      List.Forall₂ (fun item row => row.1.seed accessor escaper kind (some L₂) item =
        (row.2, .ok ())) items rows ∧
      List.Forall₂ Level states (rows.map Prod.snd) := by
  have hgrown := mapM_ok h
  clear h
  induction hgrown with
  | nil => exact ⟨[], rfl, .nil, .nil⟩
  | @cons item c items states hc _ ih =>
    obtain ⟨rows, hrows, hseeded, hlevels⟩ := ih
    obtain ⟨c₁, c₂, hc₁, hc₂, hlevel⟩ :=
      bindNames_split t.nodup_names hp ((grow_eq_ok_iff none).1 hc)
    refine ⟨(c₁, c₂) :: rows, ?_, .cons ?_ hseeded, .cons hlevel hlevels⟩
    · rw [List.mapM_cons, (grow_eq_ok_iff (some L₁)).2 hc₁, ok_bind, hrows]
      rfl
    · unfold seed
      rw [show c₁.template = t from template_bindNames hc₁]
      exact hc₂

/-- A nested template that can be bound can be bound to other states of as many items, if the names
that are seeded first are names of its own. -/
theorem populateWith_names {n : Nested} {grow grow' : σ → Except BindError State} {items : List σ}
    {states : List State} (h : s.populateWith n grow items none = .ok s')
    (hstates : items.mapM grow' = .ok states) (hnames : ∀ name ∈ names, name ∈ n.template.names) :
    s.populateWith n grow' items (some names) = .ok (s.populated n states) := by
  have hfind : ((some names).getD []).find? (fun name => !n.template.names.contains name) =
      none := by
    rw [List.find?_eq_none]
    intro name hname
    simpa using hnames name hname
  unfold populateWith at h ⊢
  split at h
  · cases h
  rename_i hr
  split at h
  · cases h
  rw [if_neg hr, hfind, hstates, (mapM_ok hstates).length_eq]
  rfl

/-- Nested states that are the same make the levels above them the same. -/
theorem same_populated {n : Nested} {states states' : List State}
    (h : List.Forall₂ Level states states') :
    Same (s.populated n states) (s.populated n states') := by
  refine .mk rfl rfl (fun _ => Iff.rfl) (fun id => ?_) (fun name => ?_) (fun name => ?_)
    fun name i c c' hc hc' => ?_
  · show Table.get? (Table.set _ _ _) _ = Table.get? (Table.set _ _ _) _
    rw [h.length_eq]
  · show Table.has (Table.set _ _ _) _ = Table.has (Table.set _ _ _) _
    rw [Table.has_set, Table.has_set]
  · rw [childrenOf_populated, childrenOf_populated]
    split
    · exact h.length_eq
    · rfl
  · rw [childrenOf_populated] at hc hc'
    split at hc
    · rename_i hn
      rw [if_pos hn] at hc'
      obtain ⟨hi, rfl⟩ := List.getElem?_eq_some_iff.1 hc
      obtain ⟨hi', rfl⟩ := List.getElem?_eq_some_iff.1 hc'
      exact (List.forall₂_iff_get.1 h).2 i hi hi' |>.same
    · rename_i hn
      rw [if_neg hn] at hc'
      cases hc.symm.trans hc'
      exact .refl c

end Seeding

end State

/-! ## Sessions -/

namespace Session

variable {s : Session} {x y : State}

/-- Changes of a level one after another, up to the first that fails. -/
def alterAll (s : Session) : List Change → State → State × Except BindError Unit
  | [], x => (x, .ok ())
  | c :: cs, x =>
    match s.alter c x with
    | (x, .ok ()) => s.alterAll cs x
    | (x, .error e) => (x, .error e)

/-- Seeds the repetitions of a nested template scope by scope, each from an item of its own. -/
def seedEach {σ : Type} (s : Session) (accessor : Accessor σ) (kind : EscapeKind) (name : Text)
    (names? : Option (List Text)) :
    Nat → List σ → State → State × Except State.ScopeError (Except BindError Unit)
  | _, [], x => (x, .ok (.ok ()))
  | i, item :: items, x =>
    match x.editAt [(name, i)] (s.alter (.seed accessor item kind names?)) with
    | (x, .ok (.ok ())) => s.seedEach accessor kind name names? (i + 1) items x
    | stopped => stopped

/-- The change as a step. -/
def step (s : Session) (c : Change) : State.Step := fun x =>
  match s.alter c x with
  | (y, .ok ()) => .ok y
  | (_, .error e) => .error e

theorem alterAll_iff {cs : List Change} :
    s.alterAll cs x = (y, .ok ()) ↔ State.runAll (cs.map s.step) x = .ok y := by
  induction cs generalizing x with
  | nil => exact ⟨fun h => congrArg Except.ok (Prod.ext_iff.1 h).1, fun h => by cases h; rfl⟩
  | cons c cs ih =>
    unfold alterAll
    rw [List.map_cons, State.runAll, step]
    split
    · exact ih
    · exact ⟨nofun, nofun⟩

theorem fills_step {c : Change} (hc : c.seeds = false) : State.Fills (s.step c) := by
  have hkeep : ∀ f : State → Except BindError State, State.Fills f →
      State.Fills fun x => match keep f x with
        | (y, .ok ()) => .ok y
        | (_, .error e) => .error e := by
    intro f hf
    convert hf using 2 with x
    unfold keep
    cases f x <;> rfl
  cases c with
  | setVariable name fragments kind => exact hkeep _ (State.fills_setVariable _ _ _ _)
  | set name value => exact hkeep _ (State.fills_setVariable _ _ _ _)
  | populate accessor name items kind names? =>
    exact hkeep _ (State.fills_populate accessor _ kind name items names?)
  | seed accessor item kind names? => cases hc

theorem seedEach_ok {σ : Type} {accessor : Accessor σ} {kind : EscapeKind} {name : Text}
    {names? : Option (List Text)} {items : List σ} {rows : List (State × State)}
    (hrows : List.Forall₂ (fun item row => row.1.seed accessor s.escaper kind names? item =
      (row.2, .ok ())) items rows) (done : List State) (hn : x.template.hasNested name = true)
    (hx : Table.get? x.children name = some (done ++ rows.map Prod.fst)) :
    s.seedEach accessor kind name names? done.length items x =
      ({ x with children := Table.set x.children name (done ++ rows.map Prod.snd) },
        .ok (.ok ())) := by
  induction hrows generalizing x done with
  | nil =>
    rw [List.map_nil] at hx ⊢
    rw [seedEach, Table.set_eq_self hx]
    cases x
    rfl
  | @cons item row items rows hrow _ ih =>
    have hchildren : x.childrenOf name = done ++ row.1 :: rows.map Prod.fst :=
      congrArg (·.getD []) hx
    have hset : (done ++ row.1 :: rows.map Prod.fst).set done.length row.2 =
        done ++ [row.2] ++ rows.map Prod.fst := by
      rw [List.set_append_right _ _ (Nat.le_refl _), Nat.sub_self, List.set_cons_zero,
        List.append_assoc]
      rfl
    have hedit : x.editAt [(name, done.length)] (s.alter (.seed accessor item kind names?)) =
        ({ x with children := Table.set x.children name (done ++ [row.2] ++ rows.map Prod.fst) },
          .ok (.ok ())) := by
      have halter : s.alter (.seed accessor item kind names?) row.1 = (row.2, .ok ()) := hrow
      unfold State.editAt
      rw [if_pos hn, hchildren, List.getElem?_append_right (Nat.le_refl _), Nat.sub_self]
      simp only [List.getElem?_cons_zero, State.editAt, halter, State.setChild, hchildren, hset]
    have hrest := ih (x := { x with
      children := Table.set x.children name (done ++ [row.2] ++ rows.map Prod.fst) })
      (done ++ [row.2]) hn ((Table.get?_set ..).trans (if_pos rfl))
    rw [Table.set_set, List.length_append, List.length_singleton] at hrest
    rw [seedEach, hedit, List.map_cons, List.append_cons done row.2 (rows.map Prod.snd)]
    exact hrest

theorem keep_eq_ok_iff {f : State → Except BindError State} :
    keep f x = (y, .ok ()) ↔ f x = .ok y := by
  unfold keep
  cases f x with
  | error e => exact ⟨nofun, nofun⟩
  | ok z => simp

/-- **The order and the number of passes do not matter.** Changes that succeed on a level succeed in
every order. A level that can be seeded from an item can be seeded in two passes, however its names
are divided between them; so can the repetitions of a nested template, where the second pass goes
through them scope by scope. The same is bound in the end. -/
theorem filling_order (s : Session) (x : State) :
    (∀ (cs cs' : List Change) (y : State), (∀ c ∈ cs, c.seeds = false) → cs.Perm cs' →
      s.alterAll cs x = (y, .ok ()) → ∃ y', s.alterAll cs' x = (y', .ok ()) ∧ y.Same y') ∧
    (∀ (σ : Type) (accessor : Accessor σ) (item : σ) (kind : EscapeKind) (y : State)
      (L₁ L₂ : List Text), (L₁ ++ L₂).Perm x.template.names →
      s.alter (.seed accessor item kind none) x = (y, .ok ()) →
        ∃ y₁ y₂, s.alter (.seed accessor item kind (some L₁)) x = (y₁, .ok ()) ∧
          s.alter (.seed accessor item kind (some L₂)) y₁ = (y₂, .ok ()) ∧ y.Same y₂) ∧
    ∀ (σ : Type) (accessor : Accessor σ) (name : Text) (items : List σ) (kind : EscapeKind)
      (n : Nested) (y : State) (L₁ L₂ : List Text), x.template.nested? name = some n →
      (L₁ ++ L₂).Perm n.template.names →
      s.alter (.populate accessor name items kind none) x = (y, .ok ()) →
        ∃ y₁ y₂, s.alter (.populate accessor name items kind (some L₁)) x = (y₁, .ok ()) ∧
          s.seedEach accessor kind name (some L₂) 0 items y₁ = (y₂, .ok (.ok ())) ∧
          y.Same y₂ := by
  refine ⟨fun cs cs' y hcs hp h => ?_, fun σ accessor item kind y L₁ L₂ hp h => ?_,
    fun σ accessor name items kind n y L₁ L₂ hn hp h => ?_⟩
  · have hfills : ∀ op ∈ cs.map s.step, State.Fills op := by
      intro op hop
      obtain ⟨c, hc, rfl⟩ := List.mem_map.1 hop
      exact fills_step (hcs c hc)
    obtain ⟨y', hy', hlevel⟩ := State.runAll_perm (hp.map s.step) hfills (alterAll_iff.1 h)
    exact ⟨y', alterAll_iff.2 hy', hlevel.same⟩
  · obtain ⟨y₁, y₂, h₁, h₂, hlevel⟩ := State.bindNames_split x.template.nodup_names hp h
    refine ⟨y₁, y₂, h₁, ?_, hlevel.same⟩
    show State.bindNames (State.seedName accessor s.escaper kind y₁.template item) y₁ L₂ = _
    rw [State.template_bindNames h₁]
    exact h₂
  · have hname := (Template.mem_nestedList_of_nested? hn).2
    rw [alter, Session.populate, keep_eq_ok_iff, State.populate, hn] at h
    obtain ⟨states, hstates, rfl, -⟩ := State.populateWith_ok h
    obtain ⟨rows, hrows, hseeded, hlevels⟩ := State.rows_split hp hstates
    have hfirst := State.populateWith_names h hrows fun name hmem =>
      hp.mem_iff.1 (List.mem_append_left L₂ hmem)
    have hhas : (x.populated n (rows.map Prod.fst)).template.hasNested name = true :=
      Template.hasNested_iff.2 (Option.isSome_iff_exists.2 ⟨n, hn⟩)
    have hfound : Table.get? (x.populated n (rows.map Prod.fst)).children name =
        some ([] ++ rows.map Prod.fst) := (Table.get?_set ..).trans (if_pos hname.symm)
    -- The second pass leaves what binding the final states at once leaves.
    have hboth : { x.populated n (rows.map Prod.fst) with
        children := Table.set (x.populated n (rows.map Prod.fst)).children name
          (rows.map Prod.snd) } = x.populated n (rows.map Prod.snd) := by
      unfold State.populated
      rw [hname, Table.set_set, List.length_map, List.length_map]
    refine ⟨x.populated n (rows.map Prod.fst), x.populated n (rows.map Prod.snd), ?_, ?_,
      State.same_populated hlevels⟩
    · rw [alter, Session.populate, keep_eq_ok_iff, State.populate, hn]
      exact hfirst
    · rw [← hboth]
      exact seedEach_ok hseeded [] hhas hfound

/-- An item that has one row, which is the item again, and the same text for every variable. -/
def oneRow : Accessor Nat := fun item name =>
  .ok (if name = ['r'] then .items [item] else .text ['1'])

/-- `r` and `y` are bound in both orders, in one pass and in two, and `x` in the only row of `r` is
left to a second pass. -/
theorem filling_order_rows :
    (∃ y y', (new rows).alterAll
        [.set ['y'] ['1'], .populate oneRow ['r'] [0] .html none] (.new rows) = (y, .ok ()) ∧
      (new rows).alterAll
        [.populate oneRow ['r'] [0] .html none, .set ['y'] ['1']] (.new rows) = (y', .ok ()) ∧
      y.Same y') ∧
    (∃ y y₁ y₂, (new rows).alter (.seed oneRow 0 .html none) (.new rows) = (y, .ok ()) ∧
      (new rows).alter (.seed oneRow 0 .html (some [['y']])) (.new rows) = (y₁, .ok ()) ∧
      (new rows).alter (.seed oneRow 0 .html (some [['r']])) y₁ = (y₂, .ok ()) ∧ y.Same y₂) ∧
    ∃ y y₁ y₂, (new rows).alter (.populate oneRow ['r'] [0] .html none) (.new rows) = (y, .ok ()) ∧
      (new rows).alter (.populate oneRow ['r'] [0] .html (some [])) (.new rows) = (y₁, .ok ()) ∧
      (new rows).seedEach oneRow .html ['r'] (some [['x']]) 0 [0] y₁ = (y₂, .ok (.ok ())) ∧
      y.Same y₂ := by
  obtain ⟨hchanges, hseed, hpopulate⟩ := filling_order (new rows) (.new rows)
  have hall : ∃ y, (new rows).alterAll [.set ['y'] ['1'], .populate oneRow ['r'] [0] .html none]
      (.new rows) = (y, .ok ()) := ⟨_, by cbv⟩
  have hone : ∃ y, (new rows).alter (.seed oneRow 0 .html none) (.new rows) = (y, .ok ()) :=
    ⟨_, by cbv⟩
  have hrow : ∃ y, (new rows).alter (.populate oneRow ['r'] [0] .html none) (.new rows) =
      (y, .ok ()) := ⟨_, by cbv⟩
  refine ⟨?_, ?_, ?_⟩
  · obtain ⟨y, hy⟩ := hall
    obtain ⟨y', hy', hsame⟩ := hchanges _ _ _ (by simp [Change.seeds]) (.swap ..) hy
    exact ⟨y, y', hy, hy', hsame⟩
  · obtain ⟨y, hy⟩ := hone
    obtain ⟨y₁, y₂, h₁, h₂, hsame⟩ := hseed _ _ _ _ _ [['y']] [['r']] (.swap ..) hy
    exact ⟨y, y₁, y₂, hy, h₁, h₂, hsame⟩
  · obtain ⟨y, hy⟩ := hrow
    obtain ⟨y₁, y₂, h₁, h₂, hsame⟩ := hpopulate _ _ _ _ _ _ _ [] [['x']] rfl (.refl _) hy
    exact ⟨y, y₁, y₂, hy, h₁, h₂, hsame⟩

end Session

end Stencil
