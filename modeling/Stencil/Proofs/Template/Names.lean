import Stencil.Proofs.Cache.Entries
import Mathlib.Data.List.Nodup

/-!
# The names of a parsed template

**Names apart** (`Template.NamesApart`). On a level no two nested templates have one name, and no
variable has the name of a nested template. Then a name finds the one nested template that it
belongs to (`nested?_eq_some_iff`).

**Positions** (`mem_positions`). Every position belongs to one variable at most.

**Parsed templates** (`Template.Parsed.wellNamed`). Names are apart on every level of a template
that a parser has given, however its includes were had: levels come with the names that were used
before (`LevelNames.Fit`), and included templates come from the parser or from the cache, into
which only the parser puts them.
-/

namespace Stencil

namespace Template

variable {t : Template} {n m : Nested} {name : Text}

/-- The nested templates of a level, in order. -/
def nestedList (t : Template) : List Nested := t.parts.filterMap Part.nested?

/-- Nested templates have names of their own, which no variable has. -/
structure NamesApart (t : Template) : Prop where
  once : (t.nestedList.map Nested.name).Nodup
  noVariable : ∀ n ∈ t.nestedList, t.hasVariable n.name = false

/-- Names are apart on every level. -/
inductive WellNamed : Template → Prop
  | mk {t : Template} (apart : t.NamesApart) (inside : ∀ n ∈ t.nestedList, WellNamed n.template) :
      WellNamed t

theorem WellNamed.apart (h : t.WellNamed) : t.NamesApart := by
  cases h
  assumption

theorem WellNamed.inside (h : t.WellNamed) : ∀ n ∈ t.nestedList, n.template.WellNamed := by
  cases h
  assumption

theorem nested?_name {p : Part} (h : p.nested? = some n) : p.isNested n.name = true := by
  cases p with
  | text => cases h
  | var => cases h
  | nested name form stamp body =>
    cases h
    simp [Part.isNested]

theorem mem_nestedList_of_nested? (h : t.nested? name = some n) :
    n ∈ t.nestedList ∧ n.name = name := by
  unfold nested? at h
  obtain ⟨p, hp, hn⟩ := Option.bind_eq_some_iff.1 h
  refine ⟨List.mem_filterMap.2 ⟨p, List.mem_of_find?_eq_some hp, hn⟩, ?_⟩
  have hname := List.find?_some hp
  cases p with
  | text => cases hn
  | var => cases hn
  | nested name' form stamp body =>
    cases hn
    exact of_decide_eq_true hname

theorem NamesApart.eq_of_name (h : t.NamesApart) (hn : n ∈ t.nestedList) (hm : m ∈ t.nestedList)
    (he : n.name = m.name) : n = m := List.inj_on_of_nodup_map h.once hn hm he

theorem hasNested_of_mem (h : n ∈ t.nestedList) : t.hasNested n.name = true := by
  obtain ⟨p, hp, hn⟩ := List.mem_filterMap.1 h
  exact List.any_eq_true.2 ⟨p, hp, nested?_name hn⟩

/-- **With names apart, a name finds its nested template.** -/
theorem NamesApart.nested?_eq_some_iff (h : t.NamesApart) :
    t.nested? name = some n ↔ n ∈ t.nestedList ∧ n.name = name := by
  constructor
  · exact mem_nestedList_of_nested?
  · rintro ⟨hn, rfl⟩
    obtain ⟨m, hm⟩ := Option.isSome_iff_exists.1 (hasNested_iff.1 (hasNested_of_mem hn))
    obtain ⟨hmem, hname⟩ := mem_nestedList_of_nested? hm
    rw [hm, h.eq_of_name hmem hn hname]

end Template

/-! ## Positions -/

namespace Template

variable {t : Template} {name other : Text} {i : Nat}

theorem mem_positionsFrom {p : Part → Bool} {start : Nat} {ps : List Part} :
    i ∈ positionsFrom p start ps ↔ ∃ j x, i = start + j ∧ ps[j]? = some x ∧ p x = true := by
  induction ps generalizing start with
  | nil => simp [positionsFrom]
  | cons x xs ih =>
    have hrest : i ∈ positionsFrom p (start + 1) xs ↔
        ∃ j y, i = start + (j + 1) ∧ (x :: xs)[j + 1]? = some y ∧ p y = true := by
      rw [ih]
      simp only [List.getElem?_cons_succ, Nat.add_assoc, Nat.add_comm 1]
    constructor
    · intro h
      by_cases hx : p x = true
      · simp only [positionsFrom, hx, if_true, List.mem_cons] at h
        rcases h with rfl | h
        · exact ⟨0, x, rfl, rfl, hx⟩
        · obtain ⟨j, y, hj⟩ := hrest.1 h
          exact ⟨j + 1, y, hj⟩
      · simp only [positionsFrom, hx] at h
        obtain ⟨j, y, hj⟩ := hrest.1 h
        exact ⟨j + 1, y, hj⟩
    · rintro ⟨j, y, hi, hy, hp⟩
      cases j with
      | zero =>
        simp only [List.getElem?_cons_zero, Option.some.injEq] at hy
        subst hy
        simp [positionsFrom, hp, hi]
      | succ j =>
        have hm := hrest.2 ⟨j, y, hi, hy, hp⟩
        unfold positionsFrom
        split
        · exact List.mem_cons_of_mem _ hm
        · exact hm

theorem mem_positions :
    i ∈ t.positions name ↔ ∃ x, t.parts[i]? = some x ∧ x.isVar name = true := by
  unfold positions
  rw [mem_positionsFrom]
  constructor
  · rintro ⟨j, x, rfl, hx⟩
    rw [Nat.zero_add]
    exact ⟨x, hx⟩
  · rintro ⟨x, hx⟩
    exact ⟨i, x, (Nat.zero_add i).symm, hx⟩

theorem mem_positions_iff_var :
    i ∈ t.positions name ↔ ∃ own raw, t.parts[i]? = some (.var name own raw) := by
  rw [mem_positions]
  constructor
  · rintro ⟨x, hx, hv⟩
    cases x with
    | var other own raw =>
      cases of_decide_eq_true hv
      exact ⟨own, raw, hx⟩
    | text => cases hv
    | nested => cases hv
  · rintro ⟨own, raw, hx⟩
    exact ⟨_, hx, decide_eq_true rfl⟩

theorem lt_of_mem_positions (h : i ∈ t.positions name) : i < t.parts.length := by
  obtain ⟨x, hx, -⟩ := mem_positions.1 h
  exact (List.getElem?_eq_some_iff.1 hx).1

/-- A position belongs to one variable. -/
theorem eq_of_mem_positions (h : i ∈ t.positions name) (h' : i ∈ t.positions other) :
    name = other := by
  obtain ⟨x, hx, hname⟩ := mem_positions.1 h
  obtain ⟨y, hy, hother⟩ := mem_positions.1 h'
  rw [hx] at hy
  cases hy
  cases x with
  | var n kind raw => exact (of_decide_eq_true hname).symm.trans (of_decide_eq_true hother)
  | text => cases hname
  | nested => cases hname

theorem hasVariable_iff : t.hasVariable name = true ↔ ∃ i, i ∈ t.positions name := by
  unfold hasVariable
  rw [List.any_eq_true]
  constructor
  · rintro ⟨x, hx, hv⟩
    obtain ⟨i, hi⟩ := List.getElem?_of_mem hx
    exact ⟨i, mem_positions.2 ⟨x, hi, hv⟩⟩
  · rintro ⟨i, hi⟩
    obtain ⟨x, hx, hv⟩ := mem_positions.1 hi
    exact ⟨x, List.mem_of_getElem? hx, hv⟩

theorem mem_names_of_hasVariable (h : t.hasVariable name = true) : name ∈ t.names := by
  obtain ⟨x, hx, hv⟩ := List.any_eq_true.1 h
  refine mem_names.2 ⟨x, hx, ?_⟩
  cases x with
  | var n kind raw => exact congrArg some (of_decide_eq_true hv)
  | text => cases hv
  | nested => cases hv

theorem mem_names_of_nested {n : Nested} (h : n ∈ t.nestedList) : n.name ∈ t.names := by
  obtain ⟨x, hx, hn⟩ := List.mem_filterMap.1 h
  refine mem_names.2 ⟨x, hx, ?_⟩
  cases x with
  | nested name form stamp body =>
    cases hn
    rfl
  | text => cases hn
  | var => cases hn

theorem mem_names_cases (h : name ∈ t.names) :
    t.hasVariable name = true ∨ ∃ n ∈ t.nestedList, n.name = name := by
  obtain ⟨p, hp, hname⟩ := mem_names.1 h
  cases p with
  | text => cases hname
  | var other own raw =>
    cases hname
    exact .inl (List.any_eq_true.2 ⟨_, hp, decide_eq_true rfl⟩)
  | nested other form stamp body =>
    cases hname
    exact .inr ⟨_, List.mem_filterMap.2 ⟨_, hp, rfl⟩, rfl⟩

end Template

/-! ## Levels -/

/-- The parts can follow on a level on which these names were used. -/
def LevelNames.Fit : LevelNames → List Part → Prop
  | _, [] => True
  | names, .text _ :: ps => names.Fit ps
  | names, .var name _ _ :: ps => name ∉ names.nested ∧ (names.addVariable name).Fit ps
  | names, .nested name _ _ _ :: ps => names.uses name = false ∧ (names.addNested name).Fit ps

namespace LevelNames

variable {names : LevelNames} {name other : Text} {ps : List Part}

@[simp] theorem uses_addVariable : (names.addVariable other).uses name = true ↔
    name = other ∨ names.uses name = true := by
  simp [uses, addVariable, or_assoc]

@[simp] theorem uses_addNested : (names.addNested other).uses name = true ↔
    name = other ∨ names.uses name = true := by
  simp only [uses, addNested, List.contains_cons, Bool.or_eq_true, beq_iff_eq]
  exact or_left_comm

/-- A nested template among the parts has a name that was not used before. -/
theorem Fit.nested_new (h : names.Fit ps) {n : Nested} (hn : n ∈ ps.filterMap Part.nested?) :
    names.uses n.name = false := by
  induction ps generalizing names with
  | nil => cases hn
  | cons p ps ih =>
    cases p with
    | text => exact ih h hn
    | var name kind raw =>
      have := ih h.2 hn
      rw [Bool.eq_false_iff, ne_eq, uses_addVariable, not_or] at this
      exact Bool.eq_false_iff.2 this.2
    | nested name form stamp body =>
      rcases List.mem_cons.1 hn with rfl | hn
      · exact h.1
      · have := ih h.2 hn
        rw [Bool.eq_false_iff, ne_eq, uses_addNested, not_or] at this
        exact Bool.eq_false_iff.2 this.2

/-- A variable among the parts has no name that was used for a nested template before. -/
theorem Fit.variable_free (h : names.Fit ps) (hv : ps.any (·.isVar name) = true) :
    name ∉ names.nested := by
  induction ps generalizing names with
  | nil => cases hv
  | cons p ps ih =>
    rw [List.any_cons, Bool.or_eq_true] at hv
    cases p with
    | text => exact ih h (hv.resolve_left (by simp [Part.isVar]))
    | var other kind raw =>
      rcases hv with hv | hv
      · rw [← of_decide_eq_true hv]
        exact h.1
      · have hrest : name ∉ (names.addVariable other).nested := ih h.2 hv
        exact hrest
    | nested other form stamp body =>
      have := ih h.2 (hv.resolve_left (by simp [Part.isVar]))
      exact fun hm => this (List.mem_cons_of_mem _ hm)

/-- **The names of parts that follow nothing are apart.** -/
theorem Fit.namesApart (h : names.Fit ps) (stamp : Stamp) : (Template.mk stamp ps).NamesApart := by
  induction ps generalizing names with
  | nil => exact ⟨List.nodup_nil, fun _ hn => nomatch hn⟩
  | cons p ps ih =>
    cases p with
    | text => exact ⟨(ih h).once, (ih h).noVariable⟩
    | var name kind raw =>
      refine ⟨(ih h.2).once, fun n hn => ?_⟩
      have hnew := h.2.nested_new hn
      rw [Bool.eq_false_iff, ne_eq, uses_addVariable, not_or] at hnew
      have hvar : Part.isVar n.name (.var name kind raw) = false :=
        decide_eq_false fun he => hnew.1 he.symm
      show (Part.isVar n.name (.var name kind raw) || ps.any (·.isVar n.name)) = false
      rw [hvar, Bool.false_or]
      exact (ih h.2).noVariable n hn
    | nested name form stamp' body =>
      have hnew : name ∉ (ps.filterMap Part.nested?).map Nested.name := by
        intro hm
        obtain ⟨n, hn, he⟩ := List.mem_map.1 hm
        have := h.2.nested_new hn
        rw [Bool.eq_false_iff, ne_eq, uses_addNested, not_or] at this
        exact this.1 he
      refine ⟨List.nodup_cons.2 ⟨hnew, (ih h.2).once⟩, fun n hn => ?_⟩
      show (false || ps.any (·.isVar n.name)) = false
      rw [Bool.false_or]
      rcases List.mem_cons.1 hn with rfl | hn
      · -- A variable of this name after the nested template would have been refused.
        rw [Bool.eq_false_iff]
        exact fun hv => h.2.variable_free hv List.mem_cons_self
      · exact (ih h.2).noVariable n hn

end LevelNames

/-! ## The parser -/

namespace Parsing

variable {inv : Cache SourceId Template → Prop}

/-- The parts of a level fit its names, and the nested templates among them are well named if
included ones are. -/
theorem Ensures.level_fit {d : Draft} {load : Text → Nat → Parsing Template}
    (h : ∀ path pos, Ensures inv (load path pos) Template.WellNamed)
    (names : LevelNames) (pieces : List Piece) :
    Ensures inv (level d load names pieces) fun parts =>
      names.Fit parts ∧ ∀ n ∈ parts.filterMap Part.nested?, n.template.WellNamed := by
  induction names, pieces using level_induction with
  | nil names =>
    rw [level_nil]
    exact .pure ⟨True.intro, fun _ hn => nomatch hn⟩
  | text names content rest ih =>
    rw [level_text]
    exact .bind ih fun _ hp => .pure hp
  | fault names t rest f hj =>
    rw [level_token, hj]
    exact .throw _
  | var names t rest kind name hj ih =>
    rw [level_token, hj]
    obtain ⟨body, -, -, -, hname⟩ := LevelNames.judge_var hj
    exact .bind ih fun _ hp => .pure ⟨⟨hname, hp.1⟩, hp.2⟩
  | opens names t rest name inner c after hj ih₁ ih₂ =>
    rw [level_token, hj]
    obtain ⟨-, -, -, hname⟩ := LevelNames.judge_opens hj
    refine .bind ih₁ fun body hb => .freshStamp_bind fun serial => .bind ih₂ fun tail ht => ?_
    refine .pure ⟨⟨hname, ht.1⟩, fun n hn => ?_⟩
    rcases List.mem_cons.1 hn with rfl | hn
    · exact .mk (hb.1.namesApart _) hb.2
    · exact ht.2 n hn
  | includes names t rest name path hj ih =>
    rw [level_token, hj]
    obtain ⟨arg, -, -, -, -, hname⟩ := LevelNames.judge_includes hj
    refine .bind (h path t.pos) fun template hw => .bind ih fun tail ht => ?_
    refine .pure ⟨⟨hname, ht.1⟩, fun n hn => ?_⟩
    rcases List.mem_cons.1 hn with rfl | hn
    · exact hw
    · exact ht.2 n hn

end Parsing

/-- A source is well named if what it includes is. -/
theorem Parser.hereditary_wellNamed (p : Parser) : p.Hereditary Template.WellNamed := by
  intro inv load id source h
  unfold Parser.parseWith
  refine .freshStamp_bind fun serial => .lift_bind fun d _ => ?_
  refine .bind (.level_fit (h d) _ _) fun parts hp => .pure ?_
  exact .mk (hp.1.namesApart _) hp.2

/-! ## What parsers give -/

/-- The benches that parsers and calls on the cache come to. Parsers may change in between. -/
inductive Bench.Used : Bench → Prop
  | new (capacity : Nat) : Used (.ofCapacity capacity)
  | load {b : Bench} (p : Parser) (path : Text) : Used b → Used ((p.load path).on b).2
  | parseText {b : Bench} (p : Parser) (source : Text) :
      Used b → Used ((p.parseText source).on b).2
  | parseSource {b : Bench} (p : Parser) (id : SourceId) (source : Text) :
      Used b → Used ((p.parseSource id source).on b).2
  | invalidate {b : Bench} (id : SourceId) : Used b → Used ((b.1.invalidate id).2, b.2)
  | clear {b : Bench} : Used b → Used (b.1.clear, b.2)

/-- The templates that parsers give, and those nested in them. -/
inductive Template.Parsed : Template → Prop
  | load {t : Template} {b : Bench} {p : Parser} {path : Text} :
      b.Used → ((p.load path).on b).1 = .ok t → Parsed t
  | parseText {t : Template} {b : Bench} {p : Parser} {source : Text} :
      b.Used → ((p.parseText source).on b).1 = .ok t → Parsed t
  | parseSource {t : Template} {b : Bench} {p : Parser} {id : SourceId} {source : Text} :
      b.Used → ((p.parseSource id source).on b).1 = .ok t → Parsed t
  | nested {t : Template} {n : Nested} : Parsed t → n ∈ t.nestedList → Parsed n.template

section Hereditary

variable {good : Template → Prop}

/-- Every cached template meets a condition that sources inherit from their includes. -/
theorem Bench.Used.holds {b : Bench} (hp : ∀ p : Parser, p.Hereditary good) (h : b.Used) :
    Cache.Holds (fun _ => good) 0 b.1 := by
  induction h with
  | new capacity => exact .ofCapacity capacity
  | load p path _ ih => exact (Parsing.Ensures.load (hp p) path _ ih).2
  | parseText p source _ ih => exact (Parsing.Ensures.parseText (hp p) source _ ih).2
  | parseSource p id source _ ih => exact (Parsing.Ensures.parseSource (hp p) id source _ ih).2
  | invalidate id _ ih => exact ih.invalidate id
  | clear _ ih => exact ih.clear

/-- **What sources inherit from their includes, and nested templates from those around them, holds
of all templates that parsers give.** -/
theorem Template.Parsed.of_hereditary {t : Template} (hp : ∀ p : Parser, p.Hereditary good)
    (hinside : ∀ t, good t → ∀ n ∈ t.nestedList, good n.template) (h : t.Parsed) : good t := by
  induction h with
  | load hb h => exact (Parsing.Ensures.load (hp _) _ _ (hb.holds hp)).1 _ h
  | parseText hb h => exact (Parsing.Ensures.parseText (hp _) _ _ (hb.holds hp)).1 _ h
  | parseSource hb h => exact (Parsing.Ensures.parseSource (hp _) _ _ _ (hb.holds hp)).1 _ h
  | nested _ hn ih => exact hinside _ ih _ hn

end Hereditary

/-- **Names are apart on every level of a template that a parser gives.** -/
theorem Template.Parsed.wellNamed {t : Template} (h : t.Parsed) : t.WellNamed :=
  h.of_hereditary Parser.hereditary_wellNamed fun _ ht => ht.inside

end Stencil
