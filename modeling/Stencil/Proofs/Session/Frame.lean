import Stencil.Proofs.Session.Completeness
import Stencil.Proofs.Session.Failure

/-!
# What an operation leaves alone

**One level** (`State.Binds`). An operation binds some names of one level. What was bound there before
stays as it is, and what does not belong to those names is not touched. That nothing is written over
follows from the records of the level (`State.Consistent`): a name that is open has no filled slot and
no children, and the number of repetitions of its template can only be set to what it is.

**Other levels** (`State.Framed`). A level is reached by a scope. Seen from there, all other levels
are above, below or beside. Those above have the level exchanged among their children, and nothing
else; those below and beside are what they were.

**Operations** (`Session.perform_framed`). So it is with every operation, whether it succeeds or not.
-/

namespace Stencil

namespace State

variable {s s' s'' x x' : State} {t : Template} {name : Text} {names : List Text}

/-! ## One level -/

/-- Whatever is bound in the first state is bound in the second one. The states of a nested template
may have been bound further, each in its place. -/
structure Keeps (s s' : State) : Prop where
  template : s'.template = s.template
  length : s'.slots.length = s.slots.length
  filled : ∀ i text, s.slot i = some text → s'.slot i = some text
  resolved : ∀ name ∈ s.resolved, name ∈ s'.resolved
  children : ∀ name cs, Table.get? s.children name = some cs →
    ∃ cs', Table.get? s'.children name = some cs' ∧ cs'.length = cs.length
  repetitions : ∀ id k, Table.get? s.repetitions id = some k →
    Table.get? s'.repetitions id = some k

theorem Keeps.refl (s : State) : s.Keeps s :=
  ⟨rfl, rfl, fun _ _ h => h, fun _ h => h, fun _ cs h => ⟨cs, h, rfl⟩, fun _ _ h => h⟩

theorem Keeps.trans (h : s.Keeps s') (h' : s'.Keeps s'') : s.Keeps s'' where
  template := h'.template.trans h.template
  length := h'.length.trans h.length
  filled := fun i text hi => h'.filled i text (h.filled i text hi)
  resolved := fun name hr => h'.resolved name (h.resolved name hr)
  children := fun name cs hcs => by
    obtain ⟨cs', hcs', hlen⟩ := h.children name cs hcs
    obtain ⟨cs'', hcs'', hlen'⟩ := h'.children name cs' hcs'
    exact ⟨cs'', hcs'', hlen'.trans hlen⟩
  repetitions := fun id k hk => h'.repetitions id k (h.repetitions id k hk)

/-- Between the states some of the names were bound that had been open, and nothing else happened. -/
structure Binds (names : List Text) (s s' : State) : Prop where
  keeps : s.Keeps s'
  /-- Children that are bound are not changed themselves. -/
  bound : ∀ name cs, Table.get? s.children name = some cs → Table.get? s'.children name = some cs
  untouched : ∀ other, other ∉ names → s.Untouched other s'
  slot : ∀ i, (∀ name ∈ names, i ∉ s.template.positions name) → s'.slot i = s.slot i
  repetitions : ∀ id, (∀ n ∈ s.template.nestedList, n.name ∈ names → n.template.id ≠ id) →
    Table.get? s'.repetitions id = Table.get? s.repetitions id

namespace Binds

theorem refl (names : List Text) (s : State) : s.Binds names s :=
  ⟨.refl s, fun _ _ h => h, fun other _ => .refl other s, fun _ _ => rfl, fun _ _ => rfl⟩

theorem trans (h : s.Binds names s') (h' : s'.Binds names s'') : s.Binds names s'' where
  keeps := h.keeps.trans h'.keeps
  bound := fun name cs hcs => h'.bound name cs (h.bound name cs hcs)
  untouched := fun other ho => (h.untouched other ho).trans (h'.untouched other ho)
  slot := fun i hi => (h'.slot i (h.keeps.template ▸ hi)).trans (h.slot i hi)
  repetitions := fun id hid =>
    (h'.repetitions id (h.keeps.template ▸ hid)).trans (h.repetitions id hid)

theorem mono {more : List Text} (h : s.Binds names s') (hsub : ∀ name ∈ names, name ∈ more) :
    s.Binds more s' where
  keeps := h.keeps
  bound := h.bound
  untouched := fun other ho => h.untouched other fun hmem => ho (hsub other hmem)
  slot := fun i hi => h.slot i fun name hname => hi name (hsub name hname)
  repetitions := fun id hid => h.repetitions id fun n hn hname => hid n hn (hsub n.name hname)

end Binds

/-- A variable that can be set is open. -/
theorem notMem_resolved_of_setVariable {escaper : Escaper} {fragments : List Text}
    {kind : EscapeKind} (h : s.setVariable escaper name fragments kind = .ok s') :
    name ∉ s.resolved := by
  intro hr
  unfold setVariable isResolved at h
  split at h
  · cases h
  · rw [if_pos (List.contains_iff_mem.2 hr)] at h
    cases h

/-- A nested template that can be bound is open. -/
theorem notMem_resolved_of_populateWith {σ : Type} {n : Nested}
    {grow : σ → Except BindError State} {items : List σ} {names? : Option (List Text)}
    (h : s.populateWith n grow items names? = .ok s') : n.name ∉ s.resolved := by
  intro hr
  unfold populateWith isResolved at h
  rw [if_pos (List.contains_iff_mem.2 hr)] at h
  cases h

/-- **Setting a variable binds its name.** -/
theorem binds_setVariable {escaper : Escaper} {fragments : List Text} {kind : EscapeKind}
    (hs : s.Consistent) (h : s.setVariable escaper name fragments kind = .ok s') :
    s.Binds [name] s' := by
  have hopen := notMem_resolved_of_setVariable h
  have huntouched : ∀ other, other ∉ [name] → s.Untouched other s' :=
    fun other ho => untouched_setVariable h fun he => ho (List.mem_singleton.2 he)
  obtain ⟨hv, texts, ht, rfl⟩ := setVariable_ok h
  have hslot : ∀ i, i ∉ s.template.positions name → (s.filled name texts).slot i = s.slot i :=
    fun i hi => congrArg Option.join (getElem?_foldl_set_of_notMem texts s.slots (ht ▸ hi))
  exact {
    keeps := {
      template := rfl
      length := length_foldl_set texts s.slots
      filled := fun i text hi => by
        rw [hslot i fun hpos => ?_]
        · exact hi
        · -- The slots of an open variable are empty.
          have hempty := (hs.unset_iff name hv).1 hopen i hpos
          rw [hempty] at hi
          cases hi
      resolved := fun other hr => List.mem_append_left _ hr
      children := fun _ cs hcs => ⟨cs, hcs, rfl⟩
      repetitions := fun _ _ hk => hk }
    bound := fun _ _ hcs => hcs
    untouched := huntouched
    slot := fun i hi => hslot i (hi name (List.mem_singleton_self _))
    repetitions := fun _ _ => rfl }

/-- **Binding a nested template binds its name.** -/
theorem binds_populateWith {σ : Type} {n : Nested} {grow : σ → Except BindError State}
    {items : List σ} {names? : Option (List Text)} (hs : s.Consistent)
    (hn : n ∈ s.template.nestedList) (h : s.populateWith n grow items names? = .ok s') :
    s.Binds [n.name] s' := by
  have hopen := notMem_resolved_of_populateWith h
  obtain ⟨states, -, rfl, hrep⟩ := populateWith_ok h
  have hbound : ∀ name cs, Table.get? s.children name = some cs →
      Table.get? (s.populated n states).children name = some cs := by
    intro name cs hcs
    show Table.get? (Table.set s.children n.name states) name = some cs
    rw [Table.get?_set, if_neg]
    · exact hcs
    · -- An open nested template has no children.
      rintro rfl
      exact hopen ((hs.populated_iff n hn).2 ⟨cs, hcs⟩)
  have hcount : ∀ id, id ≠ n.template.id →
      Table.get? (s.populated n states).repetitions id = Table.get? s.repetitions id := by
    intro id hid
    show Table.get? (Table.set s.repetitions n.template.id states.length) id = _
    rw [Table.get?_set, if_neg hid]
  exact {
    keeps := {
      template := rfl
      length := rfl
      filled := fun _ _ hi => hi
      resolved := fun _ hr => List.mem_append_left _ hr
      children := fun name cs hcs => ⟨cs, hbound name cs hcs, rfl⟩
      repetitions := fun id k hk => by
        by_cases hid : id = n.template.id
        · subst hid
          rw [hrep k hk]
          exact (Table.get?_set ..).trans (if_pos rfl)
        · rw [hcount id hid]
          exact hk }
    bound := hbound
    untouched := fun other ho =>
      untouched_populated states fun he => ho (List.mem_singleton.2 he)
    slot := fun _ _ => rfl
    repetitions := fun id hid =>
      hcount id fun he => hid n hn (List.mem_singleton_self _) he.symm }

section Seeding

variable {σ : Type} {accessor : Accessor σ} {escaper : Escaper} {kind : EscapeKind} {item : σ}

/-- **Seeding a name binds it**, if it is not left open. -/
theorem binds_seedName (hs : s.SoundFor t) (hw : t.WellNamed)
    (h : seedName accessor escaper kind t item s name = .ok s') : s.Binds [name] s' := by
  obtain ⟨hs, rfl⟩ := hs
  rcases Template.mem_names_cases (mem_names_of_bindName h) with hv | ⟨n, hn, rfl⟩
  · rcases (bindName_variable_iff hv).1 h with ⟨-, rfl⟩ | ⟨ts, -, hset⟩
    · exact .refl _ _
    · exact binds_setVariable hs.level hset
  · have hfound := hw.apart.nested?_eq_some_iff.2 ⟨hn, rfl⟩
    rcases (bindName_nested_iff (hw.apart.noVariable n hn) hfound).1 h with
      ⟨-, rfl⟩ | ⟨xs, -, hpop⟩
    · exact .refl _ _
    · exact binds_populateWith hs.level hn hpop

/-- **Seeding binds the names that it is given**, up to the first that fails. -/
theorem binds_bindNames (hs : s.SoundFor t) (hw : t.WellNamed) (names : List Text) :
    s.Binds names (bindNames (seedName accessor escaper kind t item) s names).1 := by
  induction names generalizing s with
  | nil => exact .refl _ _
  | cons name rest ih =>
    have hrest : ∀ other ∈ rest, other ∈ name :: rest := fun other => List.mem_cons_of_mem name
    unfold bindNames
    split
    · exact (ih hs).mono hrest
    · cases hb : seedName accessor escaper kind t item s name with
      | error e => exact .refl _ _
      | ok s₁ =>
        have hfirst : s.Binds (name :: rest) s₁ := (binds_seedName hs hw hb).mono fun other ho =>
          List.mem_singleton.1 ho ▸ List.mem_cons_self
        exact hfirst.trans ((ih (hs.seedName hw hb)).mono hrest)

/-- Seeding a level binds the names that are given, or all of them. -/
theorem binds_seed (hs : s.SoundFor t) (hw : t.WellNamed) (names? : Option (List Text)) :
    s.Binds (names?.getD t.names) (s.seed accessor escaper kind names? item).1 := by
  obtain ⟨hs, rfl⟩ := hs
  exact binds_bindNames ⟨hs, rfl⟩ hw _

theorem binds_populate {items : List σ} {names? : Option (List Text)} (hs : s.Consistent)
    (h : s.populate accessor escaper kind name items names? = .ok s') : s.Binds [name] s' := by
  unfold populate at h
  split at h
  · cases h
  · rename_i n hn
    obtain ⟨hmem, rfl⟩ := Template.mem_nestedList_of_nested? hn
    exact binds_populateWith hs hmem h

end Seeding

/-! ## Other levels -/

section Levels

variable {α : Type} {scope w v : Scope} {step : Text × Nat} {i : Nat} {y c c' : State}
  {f : State → State × α}

/-- The way to a level may be gone in two parts. -/
theorem at?_append (w v : Scope) : s.at? (w ++ v) = (s.at? w).bind (at? v) := by
  induction w generalizing s with
  | nil => rfl
  | cons step rest ih =>
    obtain ⟨name, i⟩ := step
    simp only [List.cons_append, at?]
    by_cases hn : s.template.hasNested name = true
    · rw [if_pos hn, if_pos hn, Option.bind_assoc]
      exact congrArg _ (funext fun c => ih)
    · rw [if_neg hn, if_neg hn]
      rfl

/-- A level may be changed by way of one above it. -/
theorem editAt_append (w v : Scope) :
    (s.editAt (w ++ v) f).1 = (s.editAt w (editAt v f)).1 := by
  induction w generalizing s with
  | nil => rfl
  | cons step rest ih =>
    obtain ⟨name, i⟩ := step
    simp only [List.cons_append, editAt]
    split
    · cases (s.childrenOf name)[i]? with
      | none => rfl
      | some c => exact congrArg (s.setChild name i) ih
    · rfl

theorem at?_cons (w : Scope) : s.at? ((name, i) :: w) =
    if s.template.hasNested name then (s.childrenOf name)[i]?.bind (at? w) else none := rfl

/-- A step leads to a child of a nested template. -/
theorem at?_cons_eq_some_iff :
    s.at? ((name, i) :: w) = some y ↔
      s.template.hasNested name = true ∧ ∃ c, (s.childrenOf name)[i]? = some c ∧
        c.at? w = some y := by
  rw [at?_cons]
  by_cases hn : s.template.hasNested name = true
  · rw [if_pos hn, Option.bind_eq_some_iff]
    exact ⟨fun h => ⟨hn, h⟩, fun h => h.2⟩
  · rw [if_neg hn]
    exact ⟨nofun, fun h => absurd h.1 hn⟩

/-- What holds of a template and of those nested in it holds at every level of a sound state. -/
theorem SoundFor.at? {good : Template → Prop}
    (hinside : ∀ t, good t → ∀ n ∈ t.nestedList, good n.template) (hs : s.SoundFor t) (ht : good t)
    (h : s.at? scope = some x) : x.SoundFor x.template ∧ good x.template := by
  induction scope generalizing s t with
  | nil =>
    cases h
    obtain ⟨hs, rfl⟩ := hs
    exact ⟨⟨hs, rfl⟩, ht⟩
  | cons step rest ih =>
    obtain ⟨name, i⟩ := step
    obtain ⟨hs, rfl⟩ := hs
    obtain ⟨hn, c, hi, hx⟩ := at?_cons_eq_some_iff.1 h
    obtain ⟨n, hn⟩ := Option.isSome_iff_exists.1 (Template.hasNested_iff.1 hn)
    obtain ⟨hlist, rfl⟩ := Template.mem_nestedList_of_nested? hn
    have hmem : c ∈ s.childrenOf n.name := List.mem_of_getElem? hi
    have hc : c.SoundFor n.template :=
      ⟨hs.children n.name c hmem, hs.level.children_template n hlist c hmem⟩
    exact ih hc (hinside _ ht n hlist) hx

/-- Below a child that is exchanged, all is as in the new one. -/
theorem at?_setChild_self (hn : s.template.hasNested name = true)
    (hi : (s.childrenOf name)[i]? = some c) :
    (s.setChild name i c').at? ((name, i) :: w) = c'.at? w := by
  obtain ⟨hlt, -⟩ := List.getElem?_eq_some_iff.1 hi
  have hn' : (s.setChild name i c').template.hasNested name = true := hn
  rw [at?_cons, if_pos hn', childrenOf_setChild, if_pos rfl, List.getElem?_set_self hlt,
    Option.bind_some]

/-- Other children, and what is below them, are found as they were. -/
theorem at?_setChild_of_ne (h : step ≠ (name, i)) :
    (s.setChild name i c').at? (step :: w) = s.at? (step :: w) := by
  obtain ⟨other, j⟩ := step
  have hchild : ((s.setChild name i c').childrenOf other)[j]? = (s.childrenOf other)[j]? := by
    rw [childrenOf_setChild]
    split
    · rename_i he
      subst he
      rw [List.getElem?_set_ne]
      rintro rfl
      exact h rfl
    · rfl
  rw [at?_cons, at?_cons, hchild]
  rfl

/-- A level whose child is exchanged keeps all that is bound. -/
theorem keeps_setChild (hi : (s.childrenOf name)[i]? = some c) : s.Keeps (s.setChild name i c') where
  template := rfl
  length := rfl
  filled := fun _ _ h => h
  resolved := fun _ h => h
  children := fun other cs hcs => by
    have hbound : ∃ cs', Table.get? (s.setChild name i c').children other = some cs' :=
      (get?_children_setChild hi).2 ⟨cs, hcs⟩
    obtain ⟨cs', hcs'⟩ := hbound
    refine ⟨cs', hcs', ?_⟩
    have hlen : ((s.setChild name i c').childrenOf other).length = (s.childrenOf other).length := by
      rw [childrenOf_setChild]
      split
      · rename_i he
        rw [List.length_set, he]
      · rfl
    simpa [childrenOf, hcs, hcs'] using hlen
  repetitions := fun _ _ h => h

/-- Below a level whose names are bound everything stays. -/
theorem Binds.at?_eq (h : x.Binds names x') (hw : w ≠ []) (hy : x.at? w = some y) :
    x'.at? w = some y := by
  cases w with
  | nil => exact absurd rfl hw
  | cons step rest =>
    obtain ⟨name, i⟩ := step
    obtain ⟨hn, c, hi, hc⟩ := at?_cons_eq_some_iff.1 hy
    refine at?_cons_eq_some_iff.2 ⟨by rw [h.keeps.template]; exact hn, c, ?_, hc⟩
    unfold childrenOf at hi ⊢
    cases hg : Table.get? x.children name with
    | none =>
      rw [hg] at hi
      cases hi
    | some cs => rw [h.bound name cs hg, ← hg, hi]

/-- The level itself is changed. -/
theorem at?_editAt_self (hx : s.at? scope = some x) :
    (s.editAt scope f).1.at? scope = some (f x).1 := by
  rcases editAt_cases scope f s with ⟨x', hx', -, hat⟩ | ⟨hnone, -⟩
  · cases hx.symm.trans hx'
    exact hat
  · rw [hnone] at hx
    cases hx

/-- What is below it stays, if its names are bound. -/
theorem at?_editAt_below (hx : s.at? scope = some x) (hf : x.Binds names (f x).1) (hw : w ≠ [])
    (hy : s.at? (scope ++ w) = some y) : (s.editAt scope f).1.at? (scope ++ w) = some y := by
  rw [at?_append, hx] at hy
  rw [at?_append, at?_editAt_self hx]
  exact hf.at?_eq hw hy

/-- Besides the way to a level and what is below it nothing is changed. -/
theorem at?_editAt_beside (hw : ¬ w <+: scope) (hscope : ¬ scope <+: w) :
    (s.editAt scope f).1.at? w = s.at? w := by
  induction scope generalizing s w with
  | nil => exact absurd List.nil_prefix hscope
  | cons step rest ih =>
    obtain ⟨name, i⟩ := step
    unfold editAt
    split
    · rename_i hn
      cases hi : (s.childrenOf name)[i]? with
      | none => rfl
      | some c =>
        cases w with
        | nil => exact absurd List.nil_prefix hw
        | cons first w =>
          by_cases he : first = (name, i)
          · subst he
            rw [List.prefix_cons_inj] at hw hscope
            show (s.setChild name i (c.editAt rest f).1).at? _ = _
            rw [at?_setChild_self hn hi, ih hw hscope, at?_cons, if_pos hn, hi,
              Option.bind_some]
          · exact at?_setChild_of_ne he
    · rfl

/-- On the way to a level each state gets another child. -/
theorem at?_editAt_above (hx : s.at? (w ++ (name, i) :: v) = some x) (hy : s.at? w = some y) :
    ∃ c c', (y.childrenOf name)[i]? = some c ∧
      (s.editAt (w ++ (name, i) :: v) f).1.at? w = some (y.setChild name i c') := by
  rw [at?_append, hy] at hx
  obtain ⟨hn, c, hi, -⟩ := at?_cons_eq_some_iff.1 hx
  refine ⟨c, (c.editAt v f).1, hi, ?_⟩
  have hstep : (y.editAt ((name, i) :: v) f).1 = y.setChild name i (c.editAt v f).1 := by
    rw [editAt, if_pos hn, hi]
  rw [editAt_append, ← hstep]
  exact at?_editAt_self hy

/-- What is bound stays bound, on whatever level. -/
theorem keeps_editAt (hx : s.at? scope = some x) (hf : x.Binds names (f x).1)
    (hy : s.at? w = some y) : ∃ y', (s.editAt scope f).1.at? w = some y' ∧ y.Keeps y' := by
  by_cases hdown : scope <+: w
  · obtain ⟨v, rfl⟩ := hdown
    by_cases hv : v = []
    · subst hv
      rw [List.append_nil] at hy ⊢
      cases hx.symm.trans hy
      exact ⟨_, at?_editAt_self hx, hf.keeps⟩
    · exact ⟨y, at?_editAt_below hx hf hv hy, .refl y⟩
  · by_cases hup : w <+: scope
    · obtain ⟨v, rfl⟩ := hup
      cases v with
      | nil => exact absurd (by simp) hdown
      | cons step v =>
        obtain ⟨c, c', hi, hedit⟩ := at?_editAt_above (f := f) hx hy
        exact ⟨_, hedit, keeps_setChild hi⟩
    · exact ⟨y, by rw [at?_editAt_beside hup hdown, hy], .refl y⟩

/-- Only names of the level that a scope leads to were bound between the states. -/
structure Framed (scope : Scope) (names : Template → List Text) (s s' : State) : Prop where
  /-- Whatever is bound on any level stays, and children keep their places. -/
  kept : ∀ w y, s.at? w = some y → ∃ y', s'.at? w = some y' ∧ y.Keeps y'
  level : ∀ x, s.at? scope = some x → ∃ x', s'.at? scope = some x' ∧ x.Binds (names x.template) x'
  nowhere : s.at? scope = none → s' = s
  above : ∀ w name i v x y, scope = w ++ (name, i) :: v → s.at? scope = some x →
    s.at? w = some y → ∃ c', s'.at? w = some (y.setChild name i c')
  beside : ∀ w, ¬ w <+: scope → ¬ scope <+: w → s'.at? w = s.at? w
  below : ∀ w y, w ≠ [] → s.at? (scope ++ w) = some y → s'.at? (scope ++ w) = some y

theorem Framed.refl (scope : Scope) (names : Template → List Text) (s : State) :
    s.Framed scope names s where
  kept := fun _ y hy => ⟨y, hy, .refl y⟩
  level := fun x hx => ⟨x, hx, .refl _ x⟩
  nowhere := fun _ => rfl
  above := fun w name i v x y hscope hx hy => by
    rw [hscope, at?_append, hy] at hx
    obtain ⟨-, c, hi, -⟩ := at?_cons_eq_some_iff.1 hx
    exact ⟨c, by rw [setChild_self hi, hy]⟩
  beside := fun _ _ _ => rfl
  below := fun _ _ _ hy => hy

/-- **A change that binds names of its level does nothing else to the state.** -/
theorem framed_editAt {names : Template → List Text}
    (hf : ∀ x, s.at? scope = some x → x.Binds (names x.template) (f x).1) :
    s.Framed scope names (s.editAt scope f).1 := by
  rcases editAt_cases scope f s with ⟨x, hx, -⟩ | ⟨-, e, he⟩
  · have hbinds := hf x hx
    exact {
      kept := fun w y hy => keeps_editAt hx hbinds hy
      level := fun x' hx' => ⟨_, at?_editAt_self hx', hf x' hx'⟩
      nowhere := fun hnone => by
        rw [hx] at hnone
        cases hnone
      above := by
        rintro w name i v x' y rfl hx' hy
        obtain ⟨-, c', -, hedit⟩ := at?_editAt_above (f := f) hx' hy
        exact ⟨c', hedit⟩
      beside := fun w hup hdown => at?_editAt_beside hup hdown
      below := fun w y hw hy => at?_editAt_below hx hbinds hw hy }
  · rw [he]
    exact .refl scope names s

end Levels

end State

/-! ## Operations -/

/-- The names that a change is given, on a level that binds a template. -/
def Change.names (t : Template) : Change → List Text
  | .setVariable name _ _ => [name]
  | .set name _ => [name]
  | .populate _ name _ _ _ => [name]
  | .seed _ _ _ names? => names?.getD t.names

namespace Operation

/-- The scope that an operation is made at. -/
def scope : Operation → State.Scope
  | .change scope _ => scope
  | .seedData _ => []
  | .populateData _ _ => []

/-- The names that an operation is given, at a level that binds a template. -/
def names (t : Template) : Operation → List Text
  | .change _ c => c.names t
  | .seedData _ => t.names
  | .populateData name _ => [name]

end Operation

namespace Session

variable {s : Session} {t : Template} {x : State}

/-- A change that fails keeps its level, and so binds nothing. -/
theorem binds_keep {names : List Text} {f : State → Except BindError State}
    (hf : ∀ y, f x = .ok y → x.Binds names y) : x.Binds names (keep f x).1 := by
  unfold keep
  split
  · rename_i y hy
    exact hf y hy
  · exact .refl names x

/-- **Every change binds names that it is given.** -/
theorem binds_alter (hx : x.SoundFor t) (hw : t.WellNamed) (c : Change) :
    x.Binds (c.names t) (s.alter c x).1 := by
  cases c with
  | setVariable name fragments kind =>
    exact binds_keep fun y hy => State.binds_setVariable hx.sound.level hy
  | set name value => exact binds_keep fun y hy => State.binds_setVariable hx.sound.level hy
  | populate accessor name items kind names? =>
    exact binds_keep fun y hy => State.binds_populate hx.sound.level hy
  | seed accessor item kind names? => exact State.binds_seed hx hw names?

/-- **An operation binds names that it is given, at its scope, and does nothing else.** In every
session of a parsed template that can be reached, and whether the operation succeeds or not: the
escaper and the kind of escaping stay. On every level, slots that are filled keep their text, names
that are resolved stay resolved, and children stay as many as they are, each in its place. On the
level of the scope nothing changes but what belongs to the names. The levels above it have the
changed one among their children and are otherwise what they were; those below it that were there
before, and all levels beside it, are the same. If the scope leads nowhere, nothing is done. -/
theorem perform_framed (ht : t.Parsed) (hs : Reachable t s) (op : Operation) :
    (s.perform op).escaper = s.escaper ∧ (s.perform op).kind = s.kind ∧
      s.state.Framed op.scope (fun t => op.names t) (s.perform op).state := by
  have hsound := hs.soundFor ht.wellNamed
  have halter : ∀ scope c, s.state.Framed scope (fun t => c.names t)
      (s.state.editAt scope (s.alter c)).1 := by
    intro scope c
    refine State.framed_editAt fun x hx => ?_
    obtain ⟨hx, hw⟩ := hsound.at? (fun _ h => h.inside) ht.wellNamed hx
    exact binds_alter hx hw c
  cases op with
  | change scope c => exact ⟨rfl, rfl, halter scope c⟩
  | seedData data =>
    show (s.seedData data).1.escaper = _ ∧ (s.seedData data).1.kind = _ ∧
      State.Framed _ _ _ (s.seedData data).1.state
    unfold seedData
    split
    · rename_i j hj
      exact ⟨rfl, rfl, halter [] (.seed Json.Node.accessor (Json.Node.root j) s.kind none)⟩
    · exact ⟨rfl, rfl, .refl _ _ _⟩
  | populateData name items =>
    show (s.populateData name items).1.escaper = _ ∧ (s.populateData name items).1.kind = _ ∧
      State.Framed _ _ _ (s.populateData name items).1.state
    unfold populateData
    split
    · rename_i js hjs
      exact ⟨rfl, rfl,
        halter [] (.populate Json.Node.accessor name (js.map Json.Node.root) s.kind none)⟩
    · exact ⟨rfl, rfl, .refl _ _ _⟩

/-- Both repetitions are there when the second one is given a text. -/
theorem perform_framed_rows :
    rows.Parsed ∧
      ∃ s, Reachable rows s ∧ (s.state.at? [(['r'], 0)]).isSome = true ∧
        (s.state.at? [(['r'], 1)]).isSome = true ∧
        s.state.Framed [(['r'], 1)] (fun _ => [['x']])
          (s.perform (.change [(['r'], 1)] (.set ['x'] ['1']))).state := by
  let s := (new rows).perform
    (.change [] (.populate (fun _ _ => .ok .absent) ['r'] [0, 1] .html none))
  have hs : Reachable rows s := .perform .new _
  obtain ⟨-, -, hframed⟩ := perform_framed parsed_rows hs (.change [(['r'], 1)] (.set ['x'] ['1']))
  exact ⟨parsed_rows, s, hs, by cbv, by cbv, hframed⟩

end Session

end Stencil
