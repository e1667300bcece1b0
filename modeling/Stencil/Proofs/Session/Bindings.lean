import Stencil.Proofs.Session.Evaluation
import Stencil.Proofs.Session.Sound
import Stencil.Proofs.Template.Serials

/-!
# What names are bound to

**One name.** For each way to bind a name there is one lemma that says when it succeeds and what it
leaves: for a variable at all its positions (`exists_setVariable_ok_iff`), for a nested template
(`populateWith_eq_ok_iff`), and for a name that an item is asked for (`bindName_variable_iff`,
`bindName_nested_iff`).

**The count of a source** (`State.Shares`). A nested template may be bound to any number of items,
unless another one of its source is bound on the level: then to as many as that. The records of a
level say so by identities of templates. Where no two nested templates have one identity without
having one source, the records and the sources agree (`Consistent.repetitions_iff_shares`).

**Seeded levels** (`State.Seeded`). Every name that is resolved is bound to what the item has for
it. Binding another name to what the item has keeps this (`SeededFor.seedName_ok`), and on a level
that the item fits it succeeds (`SeededFor.exists_seedName_ok`).

**Many names** (`bindNames_ok`). If each name can be bound whatever was bound before it, all of them
are resolved in the end.
-/

namespace Stencil

/-! ## Lists of steps -/

section Steps

variable {α β ε ε' : Type} {f : α → Except ε β} {xs : List α} {ys : List β}

/-- A member of one list is related to a member of the other. -/
theorem exists_of_forall₂ {R : α → β → Prop} (h : List.Forall₂ R xs ys) {x : α} (hx : x ∈ xs) :
    ∃ y ∈ ys, R x y := by
  induction h with
  | nil => cases hx
  | @cons x' y xs ys hxy _ ih =>
    rcases List.mem_cons.1 hx with rfl | hx
    · exact ⟨y, List.mem_cons_self, hxy⟩
    · obtain ⟨z, hz, hxz⟩ := ih hx
      exact ⟨z, List.mem_cons_of_mem _ hz, hxz⟩

/-- Searches that agree on all members find the same. -/
theorem findSome?_congr {f g : α → Option β}
    (h : ∀ x ∈ xs, f x = g x) : xs.findSome? f = xs.findSome? g := by
  induction xs with
  | nil => rfl
  | cons x xs ih =>
    rw [List.findSome?_cons, List.findSome?_cons, h x List.mem_cons_self,
      ih fun y hy => h y (List.mem_cons_of_mem x hy)]

/-- Steps that all succeed are answered one by one. -/
theorem mapM_of_forall₂ (h : List.Forall₂ (fun x y => f x = .ok y) xs ys) :
    xs.mapM f = .ok ys := by
  induction h with
  | nil => rfl
  | cons hxy _ ih =>
    rw [List.mapM_cons, hxy, ok_bind, ih]
    rfl

/-- A list of steps succeeds exactly if each step does. -/
theorem exists_mapM_ok_iff : (∃ ys, xs.mapM f = .ok ys) ↔ ∀ x ∈ xs, ∃ y, f x = .ok y := by
  constructor
  · rintro ⟨ys, h⟩ x hx
    obtain ⟨y, -, hxy⟩ := exists_of_forall₂ (State.mapM_ok h) hx
    exact ⟨y, hxy⟩
  · intro h
    induction xs with
    | nil => exact ⟨[], rfl⟩
    | cons x xs ih =>
      obtain ⟨y, hy⟩ := h x List.mem_cons_self
      obtain ⟨ys, hys⟩ := ih fun x hx => h x (List.mem_cons_of_mem _ hx)
      exact ⟨y :: ys, mapM_of_forall₂ (.cons hy (State.mapM_ok hys))⟩

theorem mapError_eq_ok_iff {g : ε → ε'} {r : Except ε α} {a : α} :
    r.mapError g = .ok a ↔ r = .ok a := by
  cases r <;> simp [Except.mapError]

end Steps

namespace State

variable {s s' : State} {t : Template} {name : Text}

/-! ## Setting a variable -/

section Variable

variable {escaper : Escaper} {kind : EscapeKind} {ts : List Text} {i : Nat}

theorem escapeAll_eq_ok_iff {text : Text} : escapeAll escaper kind ts = .ok text ↔
    (∀ x ∈ ts, ∃ y, escaper kind x = .ok y) ∧ text = escaper.concat kind ts := by
  have hjoin : ∀ ys, ts.mapM (escaper kind) = .ok ys → ys.flatten = escaper.concat kind ts := by
    intro ys h
    have hf := mapM_ok h
    clear h
    induction hf with
    | nil => rfl
    | @cons x y xs ys hxy _ ih =>
      unfold Escaper.concat at ih ⊢
      rw [List.flatten_cons, List.flatMap_cons, ih, hxy]
      rfl
  rw [← exists_mapM_ok_iff]
  unfold escapeAll
  cases hm : ts.mapM (escaper kind) with
  | error e => simp
  | ok ys =>
    rw [← hjoin ys hm]
    simp [eq_comm]

theorem fill_eq_ok_iff {own : EscapeKind} {raw : Text} {e : Nat × Text}
    (hp : t.parts[i]? = some (.var name own raw)) :
    fill escaper kind ts t name i = .ok e ↔
      escaper.Takes (own.or kind) ts ∧ e = (i, escaper.concat (own.or kind) ts) := by
  unfold fill
  rw [hp]
  dsimp only [Option.map_some, Option.getD_some, Part.escape]
  by_cases hk : (own.or kind).isSpecified = true
  · rw [if_pos hk]
    constructor
    · intro h
      obtain ⟨text, htext, rfl⟩ := map_eq_ok h
      obtain ⟨hall, rfl⟩ := escapeAll_eq_ok_iff.1 htext
      exact ⟨⟨hk, hall⟩, rfl⟩
    · rintro ⟨htakes, rfl⟩
      rw [escapeAll_eq_ok_iff.2 ⟨htakes.2, rfl⟩]
      rfl
  · rw [if_neg hk]
    exact ⟨nofun, fun h => absurd h.1.1 hk⟩

/-- A position that is set has one of the texts set there, any other what it had. -/
theorem getElem?_foldl_set (texts : List (Nat × Text)) (slots : List (Option Text))
    (h : ∀ e ∈ texts, e.1 < slots.length) (i : Nat) :
    (∃ text, (i, text) ∈ texts ∧
      (texts.foldl (fun slots (i, text) => slots.set i (some text)) slots)[i]?.join = some text) ∨
    i ∉ texts.map Prod.fst ∧
      (texts.foldl (fun slots (i, text) => slots.set i (some text)) slots)[i]?.join =
        slots[i]?.join := by
  induction texts generalizing slots with
  | nil => exact .inr ⟨List.not_mem_nil, rfl⟩
  | cons e texts ih =>
    obtain ⟨j, text⟩ := e
    have hj : j < slots.length := h (j, text) List.mem_cons_self
    rw [List.foldl_cons]
    rcases ih (slots.set j (some text)) fun e he => by
      rw [List.length_set]
      exact h e (List.mem_cons_of_mem _ he) with ⟨text', hmem, hset⟩ | ⟨hnot, hold⟩
    · exact .inl ⟨text', List.mem_cons_of_mem _ hmem, hset⟩
    · by_cases hij : i = j
      · subst hij
        refine .inl ⟨text, List.mem_cons_self, ?_⟩
        rw [hold, List.getElem?_set_self hj]
        rfl
      · refine .inr ⟨fun hm => ?_, ?_⟩
        · rcases List.mem_cons.1 hm with he | hm
          · exact hij he
          · exact hnot hm
        · rw [hold, List.getElem?_set_ne (Ne.symm hij)]

/-- The level after a variable was set to texts. -/
structure Sets (escaper : Escaper) (kind : EscapeKind) (name : Text) (ts : List Text)
    (s s' : State) : Prop where
  template : s'.template = s.template
  children : s'.children = s.children
  resolved : s'.resolved = s.resolved ++ [name]
  slot : ∀ i own raw, s.template.parts[i]? = some (.var name own raw) →
    s'.slot i = some (escaper.concat (own.or kind) ts)
  elsewhere : ∀ i, i ∉ s.template.positions name → s'.slot i = s.slot i

/-- What setting a variable leaves. -/
theorem sets_of_setVariable (hlen : s.slots.length = s.template.parts.length)
    (h : s.setVariable escaper name ts kind = .ok s') :
    Sets escaper kind name ts s s' ∧
      ∀ own raw, Part.var name own raw ∈ s.template.parts → escaper.Takes (own.or kind) ts := by
  unfold setVariable at h
  split at h
  · cases h
  split at h
  · cases h
  obtain ⟨texts, htexts, rfl⟩ := map_eq_ok h
  have hfst := map_fst_of_fill htexts
  have hbound : ∀ e ∈ texts, e.1 < s.slots.length := by
    intro e he
    rw [hlen]
    exact Template.lt_of_mem_positions (hfst ▸ List.mem_map_of_mem he)
  have hset : ∀ i own raw, s.template.parts[i]? = some (.var name own raw) →
      escaper.Takes (own.or kind) ts ∧ (s.filled name texts).slot i =
        some (escaper.concat (own.or kind) ts) := by
    intro i own raw hp
    have hi : i ∈ texts.map Prod.fst := by
      rw [hfst]
      exact Template.mem_positions_iff_var.2 ⟨own, raw, hp⟩
    rcases getElem?_foldl_set texts s.slots hbound i with ⟨text, hmem, hslot⟩ | ⟨hnot, -⟩
    · obtain ⟨j, hj⟩ := exists_of_mapM_ok htexts hmem
      cases fill_ok hj
      obtain ⟨htakes, he⟩ := (fill_eq_ok_iff hp).1 hj
      cases he
      exact ⟨htakes, hslot⟩
    · exact absurd hi hnot
  refine ⟨⟨rfl, rfl, rfl, fun i own raw hp => (hset i own raw hp).2, fun i hi => ?_⟩,
    fun own raw hp => ?_⟩
  · rcases getElem?_foldl_set texts s.slots hbound i with ⟨text, hmem, -⟩ | ⟨-, hslot⟩
    · exact absurd (hfst ▸ List.mem_map_of_mem hmem) hi
    · exact hslot
  · obtain ⟨i, hi⟩ := List.getElem?_of_mem hp
    exact (hset i own raw hi).1

end Variable

/-! ## Populating a nested template -/

section Populating

variable {σ : Type} {n : Nested} {grow : σ → Except BindError State} {items : List σ}
  {names? : Option (List Text)} {count : Nat}

/-- What binding comes to once the number of items is accepted. -/
def grown (n : Nested) (grow : σ → Except BindError State) (items : List σ)
    (names? : Option (List Text)) (s : State) : Except BindError State :=
  match (names?.getD []).find? fun name => !n.template.names.contains name with
  | some name => .error (.session (.unknownName name))
  | none => (items.mapM grow).map (s.populated n)

/-- A number of repetitions that is not the recorded one is reported. -/
theorem populateWith_eq_mismatch (hr : n.name ∉ s.resolved)
    (hget : Table.get? s.repetitions n.template.id = some count) (hne : count ≠ items.length) :
    s.populateWith n grow items names? =
      .error (.session (.repetitionMismatch n.name count items.length)) := by
  have hfilter : (Table.get? s.repetitions n.template.id).filter (· ≠ items.length) =
      some count := by
    rw [hget]
    simp [Option.filter, hne]
  unfold populateWith isResolved
  rw [hfilter, if_neg (by simpa using hr)]

/-- Otherwise the items are grown. -/
theorem populateWith_eq_grown (hr : n.name ∉ s.resolved)
    (hget : ∀ k, Table.get? s.repetitions n.template.id = some k → k = items.length) :
    s.populateWith n grow items names? = s.grown n grow items names? := by
  have hfilter : (Table.get? s.repetitions n.template.id).filter (· ≠ items.length) = none := by
    rw [Option.filter_eq_none_iff]
    intro k hk
    simp [hget k hk]
  unfold populateWith isResolved grown
  rw [hfilter, if_neg (by simpa using hr)]
  dsimp only
  cases (names?.getD []).find? fun name => !n.template.names.contains name with
  | some name => rfl
  | none =>
    cases hstates : items.mapM grow with
    | error e => rfl
    | ok states =>
      rw [(mapM_ok hstates).length_eq]
      rfl

end Populating

/-! ## The count of a source -/

section Sharing

variable {n : Nested} {count : Nat}

/-- A nested template of the same source is bound on the level, to so many repetitions. -/
def Shares (s : State) (n : Nested) (count : Nat) : Prop :=
  ∃ m ∈ s.template.nestedList, m.name ∈ s.resolved ∧ (s.childrenOf m.name).length = count ∧
    ∃ id, m.template.stamp.source = some id ∧ n.template.stamp.source = some id

/-- **A number of repetitions is recorded for an open nested template exactly if it shares its source
with one that is bound to so many.** -/
theorem Consistent.repetitions_iff_shares (hs : s.Consistent) (ht : s.template.SerialsApart)
    (hn : n ∈ s.template.nestedList) (hr : n.name ∉ s.resolved) :
    Table.get? s.repetitions n.template.id = some count ↔ s.Shares n count := by
  constructor
  · intro hget
    obtain ⟨m, hm, hmr, hid⟩ := (hs.repeated_iff n.template.id).1 ⟨count, hget⟩
    have hne : m ≠ n := by
      rintro rfl
      exact hr hmr
    have hcount := hs.repeated_eq m hm hmr
    rw [hid, hget] at hcount
    exact ⟨m, hm, hmr, (Option.some.inj hcount).symm, ht.source_of_id_eq hm hn hne hid⟩
  · rintro ⟨m, hm, hmr, rfl, id, hsm, hsn⟩
    have hid : m.template.id = n.template.id := by
      simp [Template.id, Stamp.id, hsm, hsn]
    rw [← hid]
    exact hs.repeated_eq m hm hmr

end Sharing

/-! ## Asking an item -/

section Asking

variable {σ : Type} {accessor : Accessor σ} {escaper : Escaper} {kind : EscapeKind} {item : σ}
  {grow : (n : Nested) → (∃ name, t.nested? name = some n) → σ → Except BindError State}

theorem reading_texts_iff {ts : List Text} : accessor.reading.texts item name = some ts ↔
    ∃ v, accessor item name = .ok v ∧ fragmentsFor name v = .ok (some ts) := by
  unfold Accessor.reading fragmentsFor
  dsimp only
  cases accessor item name with
  | error e => simp
  | ok v =>
    cases v with
    | bool b => cases b <;> simp [Value.toFragments?, boolText]
    | items | absent => simp [Value.toFragments?, Value.kind]
    | text | fragments | number | null => simp [Value.toFragments?]

theorem reading_items_iff {xs : List σ} : accessor.reading.items item name = some xs ↔
    ∃ v, accessor item name = .ok v ∧ itemsFor name item v = .ok (some xs) := by
  unfold Accessor.reading itemsFor
  dsimp only
  cases accessor item name with
  | error e => simp
  | ok v =>
    cases v with
    | bool b => cases b <;> simp
    | _ => simp

theorem fragmentsFor_eq_none_iff {v : Value σ} : fragmentsFor name v = .ok none ↔ v = .absent := by
  unfold fragmentsFor
  cases v <;> simp [Value.toFragments?, Value.kind]

theorem itemsFor_eq_none_iff {v : Value σ} : itemsFor name item v = .ok none ↔ v = .absent := by
  unfold itemsFor
  cases v with
  | bool b => cases b <;> simp
  | _ => simp

/-- A name that an item is asked for is left open or bound to what the item has. -/
theorem ask_eq_ok_iff {α : Type} {view : Value σ → Except AccessError (Option α)}
    {k : α → Except BindError State} (hview : ∀ v, view v = .ok none ↔ v = .absent) :
    ((accessor item name).mapError .access >>= fun v =>
      (view v).mapError .access >>= fun a? => a?.elim (.ok s) k) = .ok s' ↔
      (accessor item name = .ok .absent ∧ s' = s) ∨
        ∃ a, (∃ v, accessor item name = .ok v ∧ view v = .ok (some a)) ∧ k a = .ok s' := by
  constructor
  · intro h
    obtain ⟨v, hask, h⟩ := bind_eq_ok h
    obtain ⟨a?, ha, h⟩ := bind_eq_ok h
    rw [mapError_eq_ok_iff] at hask ha
    cases a? with
    | none =>
      rw [(hview v).1 ha] at hask
      exact .inl ⟨hask, (Except.ok.inj h).symm⟩
    | some a => exact .inr ⟨a, ⟨v, hask, ha⟩, h⟩
  · rintro (⟨hask, rfl⟩ | ⟨a, ⟨v, hask, ha⟩, h⟩)
    · rw [hask, Except.mapError, ok_bind, (hview _).2 rfl]
      rfl
    · rw [hask, Except.mapError, ok_bind, ha]
      exact h

/-- What binding a name comes to if it is a variable. -/
theorem bindName_of_variable (hv : t.hasVariable name = true) :
    bindName accessor escaper kind t item grow s name =
      (accessor item name).mapError .access >>= fun v =>
        (fragmentsFor name v).mapError .access >>= fun fragments? =>
          fragments?.elim (.ok s) fun fragments => s.setVariable escaper name fragments kind := by
  unfold bindName
  refine bind_congr fun v => ?_
  rw [if_pos hv]
  refine bind_congr fun fragments? => ?_
  cases fragments? <;> rfl

/-- What binding a name comes to if it is a nested template. -/
theorem bindName_of_nested {n : Nested} (hv : t.hasVariable name = false)
    (hn : t.nested? name = some n) :
    bindName accessor escaper kind t item grow s name =
      (accessor item name).mapError .access >>= fun v =>
        (itemsFor name item v).mapError .access >>= fun items? =>
          items?.elim (.ok s) fun items => s.populateWith n (grow n ⟨name, hn⟩) items none := by
  unfold bindName
  refine bind_congr fun v => ?_
  rw [if_neg (Bool.eq_false_iff.1 hv)]
  split
  · rename_i m hm
    cases hn.symm.trans hm
    refine bind_congr fun items? => ?_
    cases items? <;> rfl
  · rename_i hnone
    rw [hn] at hnone
    cases hnone

/-- What binding a name comes to if it is no name of the template. -/
theorem bindName_of_unknown (hv : t.hasVariable name = false) (hn : t.nested? name = none) :
    bindName accessor escaper kind t item grow s name =
      (accessor item name).mapError .access >>= fun _ =>
        .error (.session (.unknownName name)) := by
  unfold bindName
  refine bind_congr fun v => ?_
  rw [if_neg (Bool.eq_false_iff.1 hv)]
  split
  · rename_i m hm
    rw [hn] at hm
    cases hm
  · rfl

/-- **A variable is left open or set to the texts that the item has for it.** -/
theorem bindName_variable_iff (hv : t.hasVariable name = true) :
    bindName accessor escaper kind t item grow s name = .ok s' ↔
      (accessor item name = .ok .absent ∧ s' = s) ∨
        ∃ ts, accessor.reading.texts item name = some ts ∧
          s.setVariable escaper name ts kind = .ok s' := by
  simp only [reading_texts_iff]
  rw [← ask_eq_ok_iff fun _ => fragmentsFor_eq_none_iff, bindName_of_variable hv]

/-- **A nested template is left open or bound to the items that the item has for it.** -/
theorem bindName_nested_iff {n : Nested} (hv : t.hasVariable name = false)
    (hn : t.nested? name = some n) :
    bindName accessor escaper kind t item grow s name = .ok s' ↔
      (accessor item name = .ok .absent ∧ s' = s) ∨
        ∃ xs, accessor.reading.items item name = some xs ∧
          s.populateWith n (grow n ⟨name, hn⟩) xs none = .ok s' := by
  simp only [reading_items_iff]
  rw [← ask_eq_ok_iff fun _ => itemsFor_eq_none_iff, bindName_of_nested hv hn]

theorem mem_names_of_bindName
    (h : bindName accessor escaper kind t item grow s name = .ok s') : name ∈ t.names := by
  unfold bindName at h
  obtain ⟨v, -, h⟩ := bind_eq_ok h
  split at h
  · rename_i hv
    exact Template.mem_names_of_hasVariable hv
  · split at h
    · rename_i n hn
      obtain ⟨hmem, rfl⟩ := Template.mem_nestedList_of_nested? hn
      exact Template.mem_names_of_nested hmem
    · cases h

end Asking

/-! ## Seeded levels -/

section Seeding

variable {σ : Type} {accessor : Accessor σ} {escaper : Escaper} {kind : EscapeKind} {item : σ}

/-- Every resolved name is bound to what the item has for it. -/
structure Seeded (accessor : Accessor σ) (escaper : Escaper) (kind : EscapeKind) (item : σ)
    (s : State) : Prop where
  texts : ∀ i name own raw, s.template.parts[i]? = some (.var name own raw) → name ∈ s.resolved →
    ∃ ts, accessor.reading.texts item name = some ts ∧ escaper.Takes (own.or kind) ts ∧
      s.slot i = some (escaper.concat (own.or kind) ts)
  items : ∀ n ∈ s.template.nestedList, n.name ∈ s.resolved →
    ∃ xs, accessor.reading.items item n.name = some xs ∧
      List.Forall₂ (fun x c => grow accessor escaper kind n.template none x = .ok c) xs
        (s.childrenOf n.name)

/-- The state is sound, binds the template and is seeded from the item. -/
structure SeededFor (accessor : Accessor σ) (escaper : Escaper) (kind : EscapeKind) (item : σ)
    (t : Template) (s : State) : Prop where
  sound : s.SoundFor t
  seeded : Seeded accessor escaper kind item s

/-- On a new level nothing is resolved. -/
theorem seededFor_new (t : Template) : SeededFor accessor escaper kind item t (.new t) where
  sound := ⟨sound_new t, rfl⟩
  seeded := ⟨fun _ _ _ _ _ h => (nomatch h), fun _ _ h => (nomatch h)⟩

/-- Setting a variable to what the item has for it. -/
theorem Seeded.sets {ts : List Text} (h : Seeded accessor escaper kind item s)
    (ha : s.template.NamesApart) (hv : s.template.hasVariable name = true)
    (hsets : Sets escaper kind name ts s s')
    (htakes : ∀ own raw, Part.var name own raw ∈ s.template.parts → escaper.Takes (own.or kind) ts)
    (hts : accessor.reading.texts item name = some ts) :
    Seeded accessor escaper kind item s' := by
  constructor
  · intro i other own raw hp hr
    rw [hsets.template] at hp
    by_cases he : other = name
    · subst he
      exact ⟨ts, hts, htakes own raw (List.mem_of_getElem? hp), hsets.slot i own raw hp⟩
    · rw [hsets.resolved, mem_resolved_append he] at hr
      rw [hsets.elsewhere i fun hi =>
        he (Template.eq_of_mem_positions (Template.mem_positions_iff_var.2 ⟨own, raw, hp⟩) hi)]
      exact h.texts i other own raw hp hr
  · intro n hn hr
    rw [hsets.template] at hn
    have he : n.name ≠ name := by
      rintro rfl
      rw [ha.noVariable n hn] at hv
      cases hv
    rw [hsets.resolved, mem_resolved_append he] at hr
    unfold childrenOf
    rw [hsets.children]
    exact h.items n hn hr

/-- Binding a nested template to what the item has for it. -/
theorem Seeded.populated {n : Nested} {xs : List σ} {states : List State}
    (h : Seeded accessor escaper kind item s) (ha : s.template.NamesApart)
    (hn : n ∈ s.template.nestedList) (hxs : accessor.reading.items item n.name = some xs)
    (hstates : xs.mapM (grow accessor escaper kind n.template none) = .ok states) :
    Seeded accessor escaper kind item (s.populated n states) := by
  constructor
  · intro i name own raw hp hr
    have hp : s.template.parts[i]? = some (.var name own raw) := hp
    have he : name ≠ n.name := by
      rintro rfl
      have hno := ha.noVariable n hn
      rw [Template.hasVariable_iff.2 ⟨i, Template.mem_positions_iff_var.2 ⟨own, raw, hp⟩⟩] at hno
      cases hno
    exact h.texts i name own raw hp ((mem_resolved_append he).1 hr)
  · intro m hm hr
    rw [childrenOf_populated]
    by_cases he : m.name = n.name
    · rw [if_pos he, ha.eq_of_name hm hn he]
      exact ⟨xs, hxs, mapM_ok hstates⟩
    · rw [if_neg he]
      exact h.items m hm ((mem_resolved_append he).1 hr)

/-- The step of seeding that binds one name. -/
abbrev seedName (accessor : Accessor σ) (escaper : Escaper) (kind : EscapeKind) (t : Template)
    (item : σ) : State → Text → Except BindError State :=
  bindName accessor escaper kind t item fun n _ x => grow accessor escaper kind n.template none x

/-- A new level is grown by binding its names one after another. -/
theorem grow_eq_ok_iff (names? : Option (List Text)) :
    grow accessor escaper kind t names? item = .ok s ↔
      bindNames (seedName accessor escaper kind t item) (.new t) (names?.getD t.names) =
        (s, .ok ()) := by
  constructor
  · intro h
    rw [grow] at h
    split at h
    · rename_i hseed
      cases h
      exact hseed
    · cases h
  · intro h
    rw [grow, h]

theorem Seeded.seedName_ok (h : Seeded accessor escaper kind item s) (hs : s.Consistent)
    (ha : s.template.NamesApart)
    (hb : seedName accessor escaper kind s.template item s name = .ok s') :
    Seeded accessor escaper kind item s' := by
  rcases Template.mem_names_cases (mem_names_of_bindName hb) with hv | ⟨n, hn, rfl⟩
  · rcases (bindName_variable_iff hv).1 hb with ⟨-, rfl⟩ | ⟨ts, hts, hset⟩
    · exact h
    · obtain ⟨hsets, htakes⟩ := sets_of_setVariable hs.slots_length hset
      exact h.sets ha hv hsets htakes hts
  · rcases (bindName_nested_iff (ha.noVariable n hn) (ha.nested?_eq_some_iff.2 ⟨hn, rfl⟩)).1 hb with
      ⟨-, rfl⟩ | ⟨xs, hxs, hpop⟩
    · exact h
    · obtain ⟨states, hstates, rfl, -⟩ := populateWith_ok hpop
      exact h.populated ha hn hxs hstates

theorem SoundFor.seedName (hs : s.SoundFor t) (hw : t.WellNamed)
    (hb : State.seedName accessor escaper kind t item s name = .ok s') : s'.SoundFor t := by
  refine hs.bindName hw.apart (fun n hn x c hc => ?_) hb
  obtain ⟨name, hn⟩ := hn
  exact grow_soundFor (hw.inside n (Template.mem_nestedList_of_nested? hn).1) none x hc

/-- **Seeding one name keeps a level seeded.** -/
theorem SeededFor.seedName_ok (h : SeededFor accessor escaper kind item t s) (hw : t.WellNamed)
    (hb : seedName accessor escaper kind t item s name = .ok s') :
    SeededFor accessor escaper kind item t s' := by
  obtain ⟨⟨hs, rfl⟩, hseeded⟩ := h
  exact ⟨SoundFor.seedName ⟨hs, rfl⟩ hw hb, hseeded.seedName_ok hs.level hw.apart hb⟩

end Seeding

end State

end Stencil
