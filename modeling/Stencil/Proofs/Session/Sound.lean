import Stencil.Session.Basic
import Stencil.Proofs.Template.Names

/-!
# The bookkeeping of a session

**One level** (`State.Consistent`). The slots, the children, the resolved names and the numbers of
repetitions of a level are four records of what is bound there, and they say the same: a variable
is resolved exactly if its slots are filled, a nested template exactly if it has children, and the
number of repetitions of a template is that of the children of each name bound to it.

**All levels** (`State.Sound`). A level and everything below it is consistent.

**Binding.** Each way to bind a name keeps this, whether it succeeds or fails; so does seeding,
which binds names one after another and new levels below them.

**Sessions** (`Session.sound_run`). Hence it holds throughout a session of a parsed template,
whatever is done to whichever level.
-/

namespace Stencil

/-! ## The invariant -/

namespace State

variable {s s' : State} {name : Text}

/-- The records of one level agree. -/
structure Consistent (s : State) : Prop where
  slots_length : s.slots.length = s.template.parts.length
  /-- Only positions of variables are filled. -/
  slot_elsewhere : ∀ i, (∀ name, i ∉ s.template.positions name) → s.slot i = none
  resolved_names : ∀ name ∈ s.resolved, name ∈ s.template.names
  set_iff : ∀ name, s.template.hasVariable name = true →
    (name ∈ s.resolved ↔ ∀ i ∈ s.template.positions name, (s.slot i).isSome = true)
  unset_iff : ∀ name, s.template.hasVariable name = true →
    (name ∉ s.resolved ↔ ∀ i ∈ s.template.positions name, s.slot i = none)
  populated_iff : ∀ n ∈ s.template.nestedList,
    (n.name ∈ s.resolved ↔ ∃ cs, Table.get? s.children n.name = some cs)
  children_names : ∀ name cs, Table.get? s.children name = some cs →
    ∃ n ∈ s.template.nestedList, n.name = name
  children_template : ∀ n ∈ s.template.nestedList, ∀ c ∈ s.childrenOf n.name,
    c.template = n.template
  repeated_iff : ∀ id, (∃ k, Table.get? s.repetitions id = some k) ↔
    ∃ n ∈ s.template.nestedList, n.name ∈ s.resolved ∧ n.template.id = id
  repeated_eq : ∀ n ∈ s.template.nestedList, n.name ∈ s.resolved →
    Table.get? s.repetitions n.template.id = some (s.childrenOf n.name).length

/-- A level is consistent, and so is every level below it. -/
inductive Sound : State → Prop
  | mk {s : State} (level : s.Consistent) (children : ∀ name, ∀ c ∈ s.childrenOf name, Sound c) :
      Sound s

theorem Sound.level (h : s.Sound) : s.Consistent := by
  cases h
  assumption

theorem Sound.children (h : s.Sound) : ∀ name, ∀ c ∈ s.childrenOf name, c.Sound := by
  cases h
  assumption

/-- The state is sound and binds the template. -/
structure SoundFor (s : State) (t : Template) : Prop where
  sound : s.Sound
  template : s.template = t

/-- A slot is filled exactly if its variable is resolved. -/
def SlotsAgree (s : State) : Prop :=
  ∀ i, (s.slot i).isSome = true ↔ ∃ name ∈ s.resolved, i ∈ s.template.positions name

theorem Consistent.slotsAgree (h : s.Consistent) : s.SlotsAgree := by
  intro i
  constructor
  · intro hi
    by_cases hv : ∃ name, i ∈ s.template.positions name
    · obtain ⟨name, hname⟩ := hv
      refine ⟨name, ?_, hname⟩
      by_cases hr : name ∈ s.resolved
      · exact hr
      · have hnone := (h.unset_iff name (Template.hasVariable_iff.2 ⟨i, hname⟩)).1 hr i hname
        rw [hnone] at hi
        cases hi
    · rw [h.slot_elsewhere i fun name hname => hv ⟨name, hname⟩] at hi
      cases hi
  · rintro ⟨name, hr, hname⟩
    exact (h.set_iff name (Template.hasVariable_iff.2 ⟨i, hname⟩)).1 hr i hname

theorem SlotsAgree.elsewhere (h : s.SlotsAgree) (i : Nat)
    (hi : ∀ name, i ∉ s.template.positions name) : s.slot i = none := by
  cases hs : s.slot i with
  | none => rfl
  | some text =>
    obtain ⟨name, -, hname⟩ := (h i).1 (by rw [hs]; rfl)
    exact absurd hname (hi name)

theorem SlotsAgree.isSome_iff (h : s.SlotsAgree) {i : Nat} (hi : i ∈ s.template.positions name) :
    (s.slot i).isSome = true ↔ name ∈ s.resolved := by
  rw [h i]
  constructor
  · rintro ⟨other, hr, hother⟩
    rw [Template.eq_of_mem_positions hi hother]
    exact hr
  · exact fun hr => ⟨name, hr, hi⟩

theorem SlotsAgree.set_iff (h : s.SlotsAgree) (hv : s.template.hasVariable name = true) :
    name ∈ s.resolved ↔ ∀ i ∈ s.template.positions name, (s.slot i).isSome = true := by
  obtain ⟨i, hi⟩ := Template.hasVariable_iff.1 hv
  constructor
  · exact fun hr j hj => (h.isSome_iff hj).2 hr
  · exact fun hall => (h.isSome_iff hi).1 (hall i hi)

theorem SlotsAgree.unset_iff (h : s.SlotsAgree) (hv : s.template.hasVariable name = true) :
    name ∉ s.resolved ↔ ∀ i ∈ s.template.positions name, s.slot i = none := by
  obtain ⟨i, hi⟩ := Template.hasVariable_iff.1 hv
  constructor
  · intro hr j hj
    rw [← h.isSome_iff hj, Option.not_isSome_iff_eq_none] at hr
    exact hr
  · intro hall hr
    have hsome := (h.isSome_iff hi).2 hr
    rw [hall i hi] at hsome
    cases hsome

/-! ## New levels -/

theorem slot_new (t : Template) (i : Nat) : (State.new t).slot i = none := by
  unfold State.new slot
  rw [List.getElem?_replicate]
  split <;> rfl

/-- Nothing is bound on a new level. -/
theorem sound_new (t : Template) : (State.new t).Sound := by
  have hslots : (State.new t).SlotsAgree := by
    intro i
    rw [slot_new]
    constructor
    · exact fun h => nomatch h
    · rintro ⟨name, h, -⟩
      cases h
  refine .mk ?_ fun name c hc => nomatch hc
  exact {
    slots_length := List.length_replicate
    slot_elsewhere := hslots.elsewhere
    resolved_names := fun _ h => nomatch h
    set_iff := fun _ h => hslots.set_iff h
    unset_iff := fun _ h => hslots.unset_iff h
    populated_iff := fun n _ => by
      constructor
      · exact fun h => nomatch h
      · rintro ⟨cs, h⟩
        cases h
    children_names := fun _ _ h => nomatch h
    children_template := fun _ _ _ h => nomatch h
    repeated_iff := fun id => by
      constructor
      · rintro ⟨k, h⟩
        cases h
      · rintro ⟨n, -, h, -⟩
        cases h
    repeated_eq := fun _ _ h => nomatch h }

/-! ## Setting a variable -/

/-- Setting positions fills exactly those, besides what was filled before. -/
theorem isSome_foldl_set (filled : List (Nat × Text)) (slots : List (Option Text))
    (h : ∀ e ∈ filled, e.1 < slots.length) (i : Nat) :
    ((filled.foldl (fun slots (i, text) => slots.set i (some text)) slots)[i]?.join).isSome = true ↔
      i ∈ filled.map Prod.fst ∨ (slots[i]?.join).isSome = true := by
  induction filled generalizing slots with
  | nil => simp
  | cons e filled ih =>
    obtain ⟨j, text⟩ := e
    have hj : j < slots.length := h (j, text) List.mem_cons_self
    rw [List.foldl_cons, ih _ fun e he => by
      rw [List.length_set]
      exact h e (List.mem_cons_of_mem _ he)]
    rw [List.map_cons, List.mem_cons]
    by_cases hij : i = j
    · subst hij
      simp [List.getElem?_set_self hj]
    · rw [List.getElem?_set_ne (Ne.symm hij)]
      simp [hij]

theorem length_foldl_set (filled : List (Nat × Text)) (slots : List (Option Text)) :
    (filled.foldl (fun slots (i, text) => slots.set i (some text)) slots).length =
      slots.length := by
  induction filled generalizing slots with
  | nil => rfl
  | cons e filled ih =>
    rw [List.foldl_cons, ih, List.length_set]

theorem fill_ok {escaper : Escaper} {kind : EscapeKind} {fragments : List Text} {t : Template}
    {i : Nat} {e : Nat × Text} (h : fill escaper kind fragments t name i = .ok e) : e.1 = i := by
  unfold fill at h
  dsimp only at h
  split at h
  · cases he : escapeAll escaper (((t.parts[i]?.map Part.escape).getD .unspecified).or kind)
      fragments with
    | error err =>
      rw [he] at h
      cases h
    | ok text =>
      rw [he] at h
      cases h
      rfl
  · cases h

/-- The answers of a list of steps that all succeed. -/
theorem mapM_ok {α β ε : Type} {f : α → Except ε β} {xs : List α} {ys : List β}
    (h : xs.mapM f = .ok ys) : List.Forall₂ (fun x y => f x = .ok y) xs ys := by
  induction xs generalizing ys with
  | nil =>
    cases h
    exact .nil
  | cons x xs ih =>
    rw [List.mapM_cons] at h
    obtain ⟨y, hy, h⟩ := bind_eq_ok h
    obtain ⟨zs, hzs, h⟩ := bind_eq_ok h
    cases h
    exact .cons hy (ih hzs)

theorem exists_of_mapM_ok {α β ε : Type} {f : α → Except ε β} {xs : List α} {ys : List β}
    (h : xs.mapM f = .ok ys) {y : β} (hy : y ∈ ys) : ∃ x, f x = .ok y := by
  have hf := mapM_ok h
  clear h
  induction hf with
  | nil => cases hy
  | @cons x z xs zs hxz _ ih =>
    rcases List.mem_cons.1 hy with rfl | hy
    · exact ⟨x, hxz⟩
    · exact ih hy

theorem map_fst_of_fill {escaper : Escaper} {kind : EscapeKind} {fragments : List Text}
    {t : Template} {xs : List Nat} {filled : List (Nat × Text)}
    (h : xs.mapM (fill escaper kind fragments t name) = .ok filled) :
    filled.map Prod.fst = xs := by
  have hf := mapM_ok h
  clear h
  induction hf with
  | nil => rfl
  | cons he _ ih => rw [List.map_cons, fill_ok he, ih]

/-- The level with a variable set to texts at positions. -/
def filled (s : State) (name : Text) (texts : List (Nat × Text)) : State :=
  { s with
    slots := texts.foldl (fun slots (i, text) => slots.set i (some text)) s.slots
    resolved := s.resolved ++ [name] }

theorem setVariable_ok {escaper : Escaper} {fragments : List Text} {kind : EscapeKind}
    (h : s.setVariable escaper name fragments kind = .ok s') :
    s.template.hasVariable name = true ∧ ∃ texts : List (Nat × Text),
      texts.map Prod.fst = s.template.positions name ∧ s' = s.filled name texts := by
  unfold setVariable at h
  split at h
  · cases h
  rename_i hv
  split at h
  · cases h
  cases hm : (s.template.positions name).mapM (fill escaper kind fragments s.template name) with
  | error e =>
    rw [hm] at h
    cases h
  | ok texts =>
    rw [hm] at h
    cases h
    exact ⟨by simpa using hv, texts, map_fst_of_fill hm, rfl⟩

/-- With one more name resolved, another one is if it was. -/
theorem mem_resolved_append {other : Text} (h : other ≠ name) :
    other ∈ s.resolved ++ [name] ↔ other ∈ s.resolved := by
  rw [List.mem_append, List.mem_singleton]
  exact or_iff_left h

theorem SlotsAgree.filled (h : s.SlotsAgree) {texts : List (Nat × Text)}
    (hlen : s.slots.length = s.template.parts.length)
    (ht : texts.map Prod.fst = s.template.positions name) : (s.filled name texts).SlotsAgree := by
  have hbound : ∀ e ∈ texts, e.1 < s.slots.length := by
    intro e he
    have hi : e.1 ∈ s.template.positions name := by
      rw [← ht]
      exact List.mem_map_of_mem he
    rw [hlen]
    exact Template.lt_of_mem_positions hi
  intro i
  show ((texts.foldl _ s.slots)[i]?.join).isSome = true ↔
    ∃ other ∈ s.resolved ++ [name], i ∈ s.template.positions other
  rw [isSome_foldl_set texts s.slots hbound i, ht]
  constructor
  · rintro (hi | hi)
    · exact ⟨name, by simp, hi⟩
    · obtain ⟨other, hr, hother⟩ := (h i).1 hi
      exact ⟨other, List.mem_append_left _ hr, hother⟩
  · rintro ⟨other, hr, hother⟩
    rcases List.mem_append.1 hr with hr | hr
    · exact .inr ((h i).2 ⟨other, hr, hother⟩)
    · rw [List.mem_singleton.1 hr] at hother
      exact .inl hother

theorem Consistent.filled (h : s.Consistent) (ha : s.template.NamesApart)
    (hv : s.template.hasVariable name = true) {texts : List (Nat × Text)}
    (ht : texts.map Prod.fst = s.template.positions name) : (s.filled name texts).Consistent := by
  have hslots := h.slotsAgree.filled h.slots_length ht
  -- No nested template has the name of the variable.
  have hother : ∀ n ∈ s.template.nestedList, n.name ∈ s.resolved ++ [name] ↔
      n.name ∈ s.resolved := by
    intro n hn
    refine mem_resolved_append fun he => ?_
    have hno := ha.noVariable n hn
    rw [he, hv] at hno
    cases hno
  exact {
    slots_length := by
      rw [← show s.slots.length = (s.filled name texts).template.parts.length from h.slots_length]
      exact length_foldl_set texts s.slots
    slot_elsewhere := hslots.elsewhere
    resolved_names := fun other hr => by
      rcases List.mem_append.1 hr with hr | hr
      · exact h.resolved_names other hr
      · rw [List.mem_singleton.1 hr]
        exact Template.mem_names_of_hasVariable hv
    set_iff := fun _ h => hslots.set_iff h
    unset_iff := fun _ h => hslots.unset_iff h
    populated_iff := fun n hn => (hother n hn).trans (h.populated_iff n hn)
    children_names := h.children_names
    children_template := h.children_template
    repeated_iff := fun id => by
      refine (h.repeated_iff id).trans ?_
      constructor
      · rintro ⟨n, hn, hr, hid⟩
        exact ⟨n, hn, (hother n hn).2 hr, hid⟩
      · rintro ⟨n, hn, hr, hid⟩
        exact ⟨n, hn, (hother n hn).1 hr, hid⟩
    repeated_eq := fun n hn hr => h.repeated_eq n hn ((hother n hn).1 hr) }

/-- **Setting a variable keeps the records in step.** -/
theorem SoundFor.setVariable {t : Template} {escaper : Escaper} {fragments : List Text}
    {kind : EscapeKind} (hs : s.SoundFor t) (ha : t.NamesApart)
    (h : s.setVariable escaper name fragments kind = .ok s') : s'.SoundFor t := by
  obtain ⟨hs, rfl⟩ := hs
  obtain ⟨hv, texts, ht, rfl⟩ := setVariable_ok h
  exact ⟨.mk (hs.level.filled ha hv ht) hs.children, rfl⟩

/-! ## Populating a nested template -/

/-- The level with a nested template bound to states. -/
def populated (s : State) (n : Nested) (states : List State) : State :=
  { s with
    children := Table.set s.children n.name states
    resolved := s.resolved ++ [n.name]
    repetitions := Table.set s.repetitions n.template.id states.length }

theorem childrenOf_populated {n : Nested} {states : List State} :
    (s.populated n states).childrenOf name =
      if name = n.name then states else s.childrenOf name := by
  show (Table.get? (Table.set s.children n.name states) name).getD [] = _
  rw [Table.get?_set]
  split <;> rfl

theorem populateWith_ok {σ : Type} {n : Nested} {grow : σ → Except BindError State}
    {items : List σ} {names? : Option (List Text)}
    (h : s.populateWith n grow items names? = .ok s') :
    ∃ states, items.mapM grow = .ok states ∧ s' = s.populated n states ∧
      ∀ k, Table.get? s.repetitions n.template.id = some k → k = states.length := by
  unfold populateWith at h
  split at h
  · cases h
  split at h
  · cases h
  rename_i hfilter
  split at h
  · cases h
  cases hm : items.mapM grow with
  | error e =>
    rw [hm] at h
    cases h
  | ok states =>
    have hlen : items.length = states.length := (mapM_ok hm).length_eq
    rw [hm] at h
    cases h
    rw [hlen] at hfilter ⊢
    refine ⟨states, rfl, rfl, fun k hk => ?_⟩
    rw [hk, Option.filter_eq_none_iff] at hfilter
    simpa using hfilter k rfl

theorem SlotsAgree.populated (h : s.SlotsAgree) (ha : s.template.NamesApart) {n : Nested}
    (hn : n ∈ s.template.nestedList) (states : List State) :
    (s.populated n states).SlotsAgree := by
  intro i
  show (s.slot i).isSome = true ↔
    ∃ other ∈ s.resolved ++ [n.name], i ∈ s.template.positions other
  rw [h i]
  constructor
  · rintro ⟨other, hr, hother⟩
    exact ⟨other, List.mem_append_left _ hr, hother⟩
  · rintro ⟨other, hr, hother⟩
    refine ⟨other, (mem_resolved_append ?_).1 hr, hother⟩
    -- No variable has the name of the nested template.
    rintro rfl
    have hno := ha.noVariable n hn
    rw [Template.hasVariable_iff.2 ⟨i, hother⟩] at hno
    cases hno

theorem Consistent.populated (h : s.Consistent) (ha : s.template.NamesApart) {n : Nested}
    (hn : n ∈ s.template.nestedList) {states : List State}
    (ht : ∀ c ∈ states, c.template = n.template)
    (hrep : ∀ k, Table.get? s.repetitions n.template.id = some k → k = states.length) :
    (s.populated n states).Consistent := by
  have hslots := h.slotsAgree.populated ha hn states
  exact {
    slots_length := h.slots_length
    slot_elsewhere := hslots.elsewhere
    resolved_names := fun name hr => by
      rcases List.mem_append.1 hr with hr | hr
      · exact h.resolved_names name hr
      · rw [List.mem_singleton.1 hr]
        exact Template.mem_names_of_nested hn
    set_iff := fun _ h => hslots.set_iff h
    unset_iff := fun _ h => hslots.unset_iff h
    populated_iff := fun m hm => by
      show m.name ∈ s.resolved ++ [n.name] ↔
        ∃ cs, Table.get? (Table.set s.children n.name states) m.name = some cs
      rw [Table.get?_set]
      by_cases he : m.name = n.name
      · simp [he]
      · rw [if_neg he, mem_resolved_append he]
        exact h.populated_iff m hm
    children_names := fun name cs hcs => by
      by_cases he : name = n.name
      · exact ⟨n, hn, he.symm⟩
      · have hcs : Table.get? (Table.set s.children n.name states) name = some cs := hcs
        rw [Table.get?_set, if_neg he] at hcs
        exact h.children_names name cs hcs
    children_template := fun m hm c hc => by
      rw [childrenOf_populated] at hc
      split at hc
      · rename_i he
        rw [ha.eq_of_name hm hn he]
        exact ht c hc
      · exact h.children_template m hm c hc
    repeated_iff := fun id => by
      show (∃ k, Table.get? (Table.set s.repetitions n.template.id states.length) id = some k) ↔
        ∃ m ∈ s.template.nestedList, m.name ∈ s.resolved ++ [n.name] ∧ m.template.id = id
      rw [Table.get?_set]
      by_cases he : id = n.template.id
      · rw [if_pos he]
        exact ⟨fun _ => ⟨n, hn, by simp, he.symm⟩, fun _ => ⟨_, rfl⟩⟩
      · rw [if_neg he, h.repeated_iff id]
        constructor
        · rintro ⟨m, hm, hr, hid⟩
          exact ⟨m, hm, List.mem_append_left _ hr, hid⟩
        · rintro ⟨m, hm, hr, hid⟩
          refine ⟨m, hm, (mem_resolved_append fun hname => ?_).1 hr, hid⟩
          rw [ha.eq_of_name hm hn hname] at hid
          exact he hid.symm
    repeated_eq := fun m hm hr => by
      show Table.get? (Table.set s.repetitions n.template.id states.length) m.template.id = _
      rw [Table.get?_set, childrenOf_populated]
      by_cases he : m.name = n.name
      · rw [ha.eq_of_name hm hn he, if_pos rfl, if_pos rfl]
      · have hold := h.repeated_eq m hm ((mem_resolved_append he).1 hr)
        rw [if_neg he]
        split
        · rename_i hid
          rw [hid] at hold
          rw [hrep _ hold]
        · exact hold }

/-- **Populating a nested template keeps the records in step**, if the new states are sound. -/
theorem SoundFor.populateWith {σ : Type} {t : Template} {n : Nested}
    {grow : σ → Except BindError State} {items : List σ} {names? : Option (List Text)}
    (hs : s.SoundFor t) (ha : t.NamesApart) (hn : n ∈ t.nestedList)
    (hgrow : ∀ x c, grow x = .ok c → c.SoundFor n.template)
    (h : s.populateWith n grow items names? = .ok s') : s'.SoundFor t := by
  obtain ⟨hs, rfl⟩ := hs
  obtain ⟨states, hstates, rfl, hrep⟩ := populateWith_ok h
  have hmem : ∀ c ∈ states, c.SoundFor n.template := by
    intro c hc
    obtain ⟨x, hx⟩ := exists_of_mapM_ok hstates hc
    exact hgrow x c hx
  have hlevel := hs.level.populated ha hn (fun c hc => (hmem c hc).template) hrep
  refine ⟨.mk hlevel fun name c hc => ?_, rfl⟩
  rw [childrenOf_populated] at hc
  split at hc
  · exact (hmem c hc).sound
  · exact hs.children name c hc

/-! ## Seeding -/

section Seeding

variable {σ : Type} {accessor : Accessor σ} {escaper : Escaper} {kind : EscapeKind} {t : Template}

theorem SoundFor.bindName {item : σ}
    {grow : (n : Nested) → (∃ name, t.nested? name = some n) → σ → Except BindError State}
    (hs : s.SoundFor t) (ha : t.NamesApart)
    (hgrow : ∀ n hn x c, grow n hn x = .ok c → c.SoundFor n.template)
    (h : bindName accessor escaper kind t item grow s name = .ok s') : s'.SoundFor t := by
  unfold State.bindName at h
  obtain ⟨v, -, h⟩ := bind_eq_ok h
  split at h
  · obtain ⟨fragments?, -, h⟩ := bind_eq_ok h
    cases fragments? with
    | none =>
      cases h
      exact hs
    | some fragments => exact hs.setVariable ha h
  · split at h
    · rename_i n hn
      obtain ⟨items?, -, h⟩ := bind_eq_ok h
      cases items? with
      | none =>
        cases h
        exact hs
      | some items =>
        exact hs.populateWith ha (Template.mem_nestedList_of_nested? hn).1 (hgrow n ⟨name, hn⟩) h
    · cases h

/-- What binding one name keeps, binding several keeps, also if one of them fails. -/
theorem bindNames_keeps {P : State → Prop} {bind : State → Text → Except BindError State}
    (hbind : ∀ s name s', P s → bind s name = .ok s' → P s') (names : List Text) (hs : P s) :
    P (bindNames bind s names).1 := by
  induction names generalizing s with
  | nil => exact hs
  | cons name rest ih =>
    unfold bindNames
    split
    · exact ih hs
    · cases hb : bind s name with
      | ok s' => exact ih (hbind s name s' hs hb)
      | error e => exact hs

/-- **A new state seeded from an item is sound.** The induction is on the levels of the
template. -/
theorem grow_soundFor (hw : t.WellNamed) (names? : Option (List Text)) (item : σ)
    (h : grow accessor escaper kind t names? item = .ok s) : s.SoundFor t := by
  induction hw generalizing names? item s with
  | @mk t apart inside ih =>
    rw [grow] at h
    have hkeep : (bindNames (State.bindName accessor escaper kind t item fun n _ x =>
        grow accessor escaper kind n.template none x) (.new t)
          (names?.getD t.names)).1.SoundFor t :=
      bindNames_keeps (P := (·.SoundFor t)) (fun s name s' hs hb => hs.bindName apart
        (fun n hn x c hc => by
          obtain ⟨name', hn⟩ := hn
          exact ih n (Template.mem_nestedList_of_nested? hn).1 none x hc) hb)
        _ ⟨sound_new t, rfl⟩
    split at h
    · rename_i hr
      cases h
      rw [hr] at hkeep
      exact hkeep
    · cases h

theorem SoundFor.seed (hs : s.SoundFor t) (hw : t.WellNamed) (names? : Option (List Text))
    (item : σ) : (s.seed accessor escaper kind names? item).1.SoundFor t := by
  obtain ⟨hsound, rfl⟩ := hs
  unfold State.seed
  refine bindNames_keeps (P := (·.SoundFor s.template)) ?_ _ ⟨hsound, rfl⟩
  intro s₁ name s₂ hs₁ hb
  refine hs₁.bindName hw.apart (fun n hn x c hc => ?_) hb
  obtain ⟨name', hn⟩ := hn
  exact grow_soundFor (hw.inside n (Template.mem_nestedList_of_nested? hn).1) none x hc

theorem SoundFor.populate (hs : s.SoundFor t) (hw : t.WellNamed) {items : List σ}
    {names? : Option (List Text)}
    (h : s.populate accessor escaper kind name items names? = .ok s') : s'.SoundFor t := by
  obtain ⟨hsound, rfl⟩ := hs
  unfold State.populate at h
  split at h
  · cases h
  · rename_i n hn
    have hmem := (Template.mem_nestedList_of_nested? hn).1
    refine SoundFor.populateWith ⟨hsound, rfl⟩ hw.apart hmem (fun x c hc => ?_) h
    exact grow_soundFor (hw.inside n hmem) names? x hc

end Seeding

/-! ## Lower levels -/

theorem childrenOf_setChild {other : Text} {i : Nat} {c : State} :
    (s.setChild name i c).childrenOf other =
      if other = name then (s.childrenOf name).set i c else s.childrenOf other := by
  show (Table.get? (Table.set s.children name ((s.childrenOf name).set i c)) other).getD [] = _
  rw [Table.get?_set]
  split <;> rfl

/-- A name with a child has children before and after the child is exchanged. -/
theorem get?_children_setChild {other : Text} {i : Nat} {c c' : State}
    (hi : (s.childrenOf name)[i]? = some c) :
    (∃ cs, Table.get? (s.setChild name i c').children other = some cs) ↔
      ∃ cs, Table.get? s.children other = some cs := by
  show (∃ cs, Table.get? (Table.set s.children name ((s.childrenOf name).set i c')) other =
    some cs) ↔ _
  rw [Table.get?_set]
  by_cases he : other = name
  · subst he
    rw [if_pos rfl]
    refine ⟨fun _ => ?_, fun _ => ⟨_, rfl⟩⟩
    cases hg : Table.get? s.children other with
    | some cs => exact ⟨cs, rfl⟩
    | none =>
      simp [childrenOf, hg] at hi
  · rw [if_neg he]

/-- **Exchanging a child for one of the same template keeps the records in step.** -/
theorem SoundFor.setChild {t : Template} {i : Nat} {c c' : State} (hs : s.SoundFor t)
    (hi : (s.childrenOf name)[i]? = some c) (hc : c'.SoundFor c.template) :
    (s.setChild name i c').SoundFor t := by
  obtain ⟨hs, rfl⟩ := hs
  have h := hs.level
  have hmem : c ∈ s.childrenOf name := List.mem_of_getElem? hi
  refine ⟨.mk ?_ fun other d hd => ?_, rfl⟩
  · exact {
      slots_length := h.slots_length
      slot_elsewhere := h.slot_elsewhere
      resolved_names := h.resolved_names
      set_iff := h.set_iff
      unset_iff := h.unset_iff
      populated_iff := fun n hn => (h.populated_iff n hn).trans (get?_children_setChild hi).symm
      children_names := fun other cs hcs => by
        obtain ⟨cs', hcs'⟩ := (get?_children_setChild hi).1 ⟨cs, hcs⟩
        exact h.children_names other cs' hcs'
      children_template := fun n hn d hd => by
        rw [childrenOf_setChild] at hd
        split at hd
        · rename_i he
          rcases List.mem_or_eq_of_mem_set hd with hd | rfl
          · exact h.children_template n hn d (he ▸ hd)
          · rw [hc.template]
            exact h.children_template n hn c (he ▸ hmem)
        · exact h.children_template n hn d hd
      repeated_iff := h.repeated_iff
      repeated_eq := fun n hn hr => by
        have hold := h.repeated_eq n hn hr
        rw [childrenOf_setChild]
        split
        · rename_i he
          rw [List.length_set, ← he]
          exact hold
        · exact hold }
  · rw [childrenOf_setChild] at hd
    split at hd
    · rcases List.mem_or_eq_of_mem_set hd with hd | rfl
      · exact hs.children name d hd
      · exact hc.sound
    · exact hs.children other d hd

/-- A change that keeps every level sound may be made at any level. -/
theorem SoundFor.editAt {α : Type} {t : Template} {f : State → State × α}
    (hf : ∀ s t, t.WellNamed → s.SoundFor t → (f s).1.SoundFor t) (scope : Scope)
    (hs : s.SoundFor t) (hw : t.WellNamed) : (s.editAt scope f).1.SoundFor t := by
  induction scope generalizing s t with
  | nil => exact hf s t hw hs
  | cons step rest ih =>
    obtain ⟨name, i⟩ := step
    unfold State.editAt
    split
    · rename_i hn
      split
      · rename_i c hi
        have hmem : c ∈ s.childrenOf name := List.mem_of_getElem? hi
        have hc : c.SoundFor c.template := ⟨hs.sound.children name c hmem, rfl⟩
        obtain ⟨n, hn⟩ := Option.isSome_iff_exists.1 (Template.hasNested_iff.1 hn)
        obtain ⟨hlist, rfl⟩ := Template.mem_nestedList_of_nested? hn
        have hwc : c.template.WellNamed := by
          rw [hs.sound.level.children_template n hlist c hmem]
          rw [hs.template] at hlist
          exact hw.inside n hlist
        exact hs.setChild hi (ih hc hwc)
      · exact hs
    · exact hs

end State

/-! ## Sessions -/

/-- A change of one level through a session. -/
inductive Change : Type 1 where
  | setVariable (name : Text) (fragments : List Text) (kind : EscapeKind)
  | set (name value : Text)
  | populate {σ : Type} (accessor : Accessor σ) (name : Text) (items : List σ) (kind : EscapeKind)
    (names? : Option (List Text))
  | seed {σ : Type} (accessor : Accessor σ) (item : σ) (kind : EscapeKind)
    (names? : Option (List Text))

/-- What can be done to a session. -/
inductive Operation : Type 1 where
  | change (scope : State.Scope) (c : Change)
  | seedData (data : Datum)
  | populateData (name : Text) (items : List Datum)

namespace Session

variable {s : Session} {t : Template}

/-- The change of a level, in the session's manner of escaping. -/
def alter (s : Session) : Change → State → State × Except BindError Unit
  | .setVariable name fragments kind => s.setVariable name fragments kind
  | .set name value => s.set name value
  | .populate accessor name items kind names? => s.populate accessor name items kind names?
  | .seed accessor item kind names? => s.seed accessor item kind names?

/-- The session after an operation, whether it succeeds or fails. -/
def perform (s : Session) : Operation → Session
  | .change scope c => (s.editAt scope (s.alter c)).1
  | .seedData data => (s.seedData data).1
  | .populateData name items => (s.populateData name items).1

/-- A change keeps a level that it fails on. -/
theorem keep_soundFor {f : State → Except BindError State} {x : State}
    (hf : ∀ y, f x = .ok y → y.SoundFor t) (hx : x.SoundFor t) : (keep f x).1.SoundFor t := by
  unfold keep
  split
  · rename_i y hy
    exact hf y hy
  · exact hx

theorem alter_soundFor (c : Change) (x : State) (t : Template) (hw : t.WellNamed)
    (hx : x.SoundFor t) : (s.alter c x).1.SoundFor t := by
  cases c with
  | setVariable name fragments kind =>
    exact keep_soundFor (fun y hy => hx.setVariable hw.apart hy) hx
  | set name value => exact keep_soundFor (fun y hy => hx.setVariable hw.apart hy) hx
  | populate accessor name items kind names? =>
    exact keep_soundFor (fun y hy => hx.populate hw hy) hx
  | seed accessor item kind names? => exact hx.seed hw names? item

/-- Every operation keeps a session sound. -/
theorem perform_soundFor (op : Operation) (hw : t.WellNamed) (hs : s.state.SoundFor t) :
    (s.perform op).state.SoundFor t := by
  cases op with
  | change scope c => exact hs.editAt (fun x t hw hx => alter_soundFor c x t hw hx) scope hw
  | seedData data =>
    show (s.seedData data).1.state.SoundFor t
    unfold seedData
    split
    · exact hs.seed hw none _
    · exact hs
  | populateData name items =>
    show (s.populateData name items).1.state.SoundFor t
    unfold populateData
    split
    · exact keep_soundFor (fun y hy => hs.populate hw hy) hs
    · exact hs

/-- **The records of a session agree on every level**, after any operations on a new session of a
parsed template. -/
theorem sound_run (h : t.Parsed) (escaper : Escaper) (kind : EscapeKind) (ops : List Operation) :
    (ops.foldl perform ⟨.new t, escaper, kind⟩).state.Sound := by
  have hkeep : ∀ s : Session, s.state.SoundFor t → (ops.foldl perform s).state.SoundFor t := by
    induction ops with
    | nil => exact fun s hs => hs
    | cons op rest ih => exact fun s hs => ih _ (perform_soundFor op h.wellNamed hs)
  exact (hkeep _ ⟨State.sound_new t, rfl⟩).sound

/-- A template with one nested template and a variable after it. -/
def rows : Template :=
  ⟨⟨1, none⟩, [.nested ['r'] (.inline "~%%begin:r%".toList "~%%end:r%".toList) ⟨2, none⟩
    [.var ['x'] .unspecified "~%x%".toList], .var ['y'] .unspecified "~%y%".toList]⟩

theorem parsed_rows : rows.Parsed := by
  have hp : (tokenize .standard "~%%begin:r%~%x%~%%end:r%~%y%".toList).pieces =
      [.token ⟨.opens ['r'], 0, "~%%begin:r%".toList, [], []⟩,
        .token ⟨.var ['x'], 11, "~%x%".toList, [], []⟩,
        .token ⟨.closes ['r'], 15, "~%%end:r%".toList, [], []⟩,
        .token ⟨.var ['y'], 24, "~%y%".toList, [], []⟩] := by
    decide
  have hd : Draft.ofSource Markers.standard.ditch (Stamp.origin ⟨1, none⟩)
      "~%%begin:r%~%x%~%%end:r%~%y%".toList = .ok ⟨Stamp.origin ⟨1, none⟩,
        "~%%begin:r%~%x%~%%end:r%~%y%".toList, "~%%begin:r%~%x%~%%end:r%~%y%".toList, []⟩ := rfl
  have h : ((Parser.parseText ⟨.standard, .none, true⟩ "~%%begin:r%~%x%~%%end:r%~%y%".toList).on
      (.ofCapacity 0)).1 = .ok rows := by
    unfold Parser.parseText
    rw [Parser.on_parseWith_ok _ hd]
    dsimp only
    rw [hp]
    simp [level_token, LevelNames.judge, splitEnd, readVariable, Text.splitOnce, level_nil,
      LevelNames.uses, LevelNames.addNested, LevelNames.addVariable, LevelNames.empty, rows,
      Token.raw]
    rfl
  exact .parseText (.new 0) h

/-- Both repetitions are left open and one of them is set afterwards; a second value for it is
refused. -/
theorem sound_run_rows :
    rows.Parsed ∧
      ([.change [] (.populate (fun _ _ => .ok .absent) ['r'] [0, 1] .html none),
        .change [(['r'], 1)] (.set ['x'] ['1']), .change [(['r'], 1)] (.set ['x'] ['2']),
        .seedData (.map [])].foldl perform ⟨.new rows, standardEscaper, .html⟩).state.Sound :=
  ⟨parsed_rows, sound_run parsed_rows standardEscaper .html _⟩

end Session

end Stencil
