import Mathlib.Data.List.Sort
import Stencil.Proofs.Template.Names
import Stencil.Template.Index

/-!
# Indices are exact

**One part** (`Index.Covers.add`). If an index is that of the parts before, and the part has no name
that it may not have there, the index with the part entered is that of the parts up to it.

**All parts** (`Index.covers_ofParts`). So the index of a level with names apart has the names of
its first occurrences, the positions of all variables and those of all nested templates; and no
nested template is entered under a name that has an entry (`Index.Covers.nestedPosition?_eq_none`).

**Names of parsed templates** (`Template.Parsed.named`). No part of a parsed template has the empty
name.
-/

namespace Stencil

/-! ## First occurrences -/

theorem firsts_concat (xs : List Text) (x : Text) :
    firsts (xs ++ [x]) = if x ∈ xs then firsts xs else firsts xs ++ [x] := by
  induction xs with
  | nil => simp [firsts]
  | cons y ys ih =>
    rw [List.cons_append, firsts, ih]
    by_cases hx : x ∈ ys
    · simp [firsts, hx]
    · by_cases hy : x = y
      · simp [firsts, ← hy, hx]
      · simp [firsts, hy, hx]

theorem Template.positionsFrom_concat (f : Part → Bool) (pos : Nat) (ps : List Part) (p : Part) :
    positionsFrom f pos (ps ++ [p]) =
      positionsFrom f pos ps ++ if f p then [pos + ps.length] else [] := by
  induction ps generalizing pos with
  | nil => simp [positionsFrom]
  | cons q ps ih =>
    have hpos : pos + 1 + ps.length = pos + (q :: ps).length := by
      rw [List.length_cons]
      omega
    rw [List.cons_append, positionsFrom, positionsFrom, ih, hpos]
    split <;> rfl

theorem Template.pairwise_positionsFrom (f : Part → Bool) (pos : Nat) (ps : List Part) :
    (positionsFrom f pos ps).Pairwise (· < ·) := by
  induction ps generalizing pos with
  | nil => exact .nil
  | cons p ps ih =>
    rw [positionsFrom]
    split
    · refine List.pairwise_cons.2 ⟨fun i hi => ?_, ih (pos + 1)⟩
      obtain ⟨j, -, rfl, -⟩ := mem_positionsFrom.1 hi
      omega
    · exact ih (pos + 1)

/-! ## Entering parts -/

/-- The part may follow these on a level: a variable shares its name with no nested template, and a
nested template with nothing. -/
def Part.NewIn (before : List Part) : Part → Prop
  | .text _ => True
  | .var name _ _ => before.any (·.isNested name) = false
  | .nested name _ _ _ => before.any (·.isVar name) = false ∧ before.any (·.isNested name) = false

/-- With names apart, every part may follow those before it. -/
theorem Template.NamesApart.newIn {t : Template} (h : t.NamesApart) {before after : List Part}
    {p : Part} (hp : t.parts = before ++ p :: after) : p.NewIn before := by
  have hnested : t.nestedList = before.filterMap Part.nested? ++
      (p :: after).filterMap Part.nested? := by
    rw [nestedList, hp, List.filterMap_append]
  -- What is nested before is nested in the template.
  have hmem : ∀ {name}, before.any (·.isNested name) = true →
      ∃ n ∈ before.filterMap Part.nested?, n.name = name := by
    intro name hany
    obtain ⟨q, hq, hname⟩ := List.any_eq_true.1 hany
    cases q with
    | text => cases hname
    | var => cases hname
    | nested other form stamp body =>
      exact ⟨_, List.mem_filterMap.2 ⟨_, hq, rfl⟩, of_decide_eq_true hname⟩
  cases p with
  | text => trivial
  | var name kind raw =>
    refine Bool.eq_false_iff.2 fun hany => ?_
    obtain ⟨n, hn, rfl⟩ := hmem hany
    have hfree := h.noVariable n (by rw [hnested]; exact List.mem_append_left _ hn)
    rw [hasVariable, hp, List.any_append, List.any_cons] at hfree
    simp [Part.isVar] at hfree
  | nested name form stamp body =>
    have hn : (⟨name, form, ⟨stamp, body⟩⟩ : Nested) ∈ t.nestedList := by
      rw [hnested]
      exact List.mem_append_right _ List.mem_cons_self
    refine ⟨Bool.eq_false_iff.2 fun hany => ?_, Bool.eq_false_iff.2 fun hany => ?_⟩
    · have hfree := h.noVariable _ hn
      rw [hasVariable, hp, List.any_append, hany] at hfree
      cases hfree
    · obtain ⟨n, hbefore, hname⟩ := hmem hany
      have honce := h.once
      rw [hnested, List.map_append, List.nodup_append] at honce
      refine honce.2.2 n.name (List.mem_map_of_mem hbefore) name ?_ hname
      exact List.mem_cons_self

namespace Index

variable {index : Index} {before : List Part} {p : Part} {name : Text}

/-- The index is that of the parts. -/
structure Covers (index : Index) (parts : List Part) : Prop where
  names : index.names = firsts (parts.filterMap Part.name?)
  vars : ∀ name, (index.vars.get? name).getD [] =
    Template.positionsFrom (·.isVar name) 0 parts
  noneEmpty : ∀ name, index.vars.get? name ≠ some []
  nested : ∀ name, index.nested.get? name = parts.findIdx? (·.isNested name)

theorem covers_empty : empty.Covers [] where
  names := rfl
  vars := fun _ => rfl
  noneEmpty := fun _ => nofun
  nested := fun _ => rfl

/-- A variable that has no position was not a name before, if no nested template has its name. -/
theorem not_mem_names_iff (h : before.any (·.isNested name) = false) :
    name ∉ before.filterMap Part.name? ↔ Template.positionsFrom (·.isVar name) 0 before = [] := by
  rw [List.eq_nil_iff_forall_not_mem]
  constructor
  · intro hname i hi
    obtain ⟨j, x, -, hx, hvar⟩ := Template.mem_positionsFrom.1 hi
    cases x with
    | text => cases hvar
    | nested => cases hvar
    | var other kind raw =>
      refine hname (List.mem_filterMap.2 ⟨_, List.mem_of_getElem? hx, ?_⟩)
      exact congrArg some (of_decide_eq_true hvar)
  · intro hnone hname
    obtain ⟨x, hx, hxn⟩ := List.mem_filterMap.1 hname
    cases x with
    | text => cases hxn
    | nested other form stamp body =>
      have hany : before.any (·.isNested name) = true :=
        List.any_eq_true.2 ⟨_, hx, decide_eq_true (Option.some.inj hxn)⟩
      rw [h] at hany
      cases hany
    | var other kind raw =>
      obtain ⟨j, hj⟩ := List.getElem?_of_mem hx
      exact hnone (0 + j) (Template.mem_positionsFrom.2
        ⟨j, _, rfl, hj, decide_eq_true (Option.some.inj hxn)⟩)

/-- A name has no entry if no nested template before has it. -/
theorem Covers.nestedPosition?_eq_none (h : index.Covers before)
    (hfree : before.any (·.isNested name) = false) : index.nestedPosition? name = none := by
  rw [nestedPosition?, h.nested, List.findIdx?_eq_none_iff]
  exact fun x hx => Bool.eq_false_iff.2 (List.any_eq_false.1 hfree x hx)

/-- **Entering a part gives the index of the parts up to it.** -/
theorem Covers.add (h : index.Covers before) (hp : p.NewIn before) :
    (index.add before.length p).Covers (before ++ [p]) := by
  cases p with
  | text content =>
    refine ⟨?_, fun name => ?_, h.noneEmpty, fun name => ?_⟩
    · rw [List.filterMap_append]
      exact h.names.trans (congrArg firsts (List.append_nil _).symm)
    · rw [Template.positionsFrom_concat]
      simpa [Index.add, Part.isVar] using h.vars name
    · rw [List.findIdx?_append]
      simpa [Index.add, Part.isNested] using h.nested name
  | var name kind raw =>
    have hempty : ((index.vars.get? name).getD []).isEmpty = true ↔
        name ∉ before.filterMap Part.name? := by
      rw [h.vars, List.isEmpty_iff]
      exact (not_mem_names_iff hp).symm
    refine ⟨?_, fun other => ?_, fun other => ?_, fun other => ?_⟩
    · rw [List.filterMap_append]
      show _ = firsts (before.filterMap Part.name? ++ [name])
      rw [firsts_concat, ← h.names]
      by_cases hname : name ∈ before.filterMap Part.name?
      · rw [if_pos hname]
        exact if_neg (mt hempty.1 (not_not_intro hname))
      · rw [if_neg hname]
        exact if_pos (hempty.2 hname)
    · rw [Template.positionsFrom_concat]
      show ((Table.set _ _ _).get? other).getD [] = _
      rw [Table.get?_set]
      by_cases hother : other = name
      · subst hother
        simp [Part.isVar, h.vars]
      · simp [Part.isVar, hother, Ne.symm hother, h.vars]
    · show (Table.set _ _ _).get? other ≠ some []
      rw [Table.get?_set]
      split
      · simp
      · exact h.noneEmpty other
    · rw [List.findIdx?_append]
      simpa [Index.add, Part.isNested] using h.nested other
  | nested name form stamp body =>
    have hname : name ∉ before.filterMap Part.name? := by
      rw [not_mem_names_iff hp.2, List.eq_nil_iff_forall_not_mem]
      intro i hi
      obtain ⟨j, x, -, hx, hvar⟩ := Template.mem_positionsFrom.1 hi
      have hany := List.any_eq_true.2 ⟨x, List.mem_of_getElem? hx, hvar⟩
      rw [hp.1] at hany
      cases hany
    refine ⟨?_, fun other => ?_, h.noneEmpty, fun other => ?_⟩
    · rw [List.filterMap_append]
      show _ = firsts (before.filterMap Part.name? ++ [name])
      rw [firsts_concat, if_neg hname, ← h.names]
      rfl
    · rw [Template.positionsFrom_concat]
      simpa [Index.add, Part.isVar] using h.vars other
    · show (Table.set _ _ _).get? other = _
      rw [Table.get?_set, List.findIdx?_append, ← h.nested]
      by_cases hother : other = name
      · subst hother
        have hnone : index.nested.get? other = none := h.nestedPosition?_eq_none hp.2
        simp [hnone, Part.isNested]
      · simp [Part.isNested, hother, Ne.symm hother]

/-- **The index of parts with names apart is that of the parts.** -/
theorem Covers.addAll {after : List Part} (h : index.Covers before)
    (hnew : ∀ front p back, before ++ after = front ++ p :: back → p.NewIn front) :
    (index.addAll before.length after).Covers (before ++ after) := by
  induction after generalizing before index with
  | nil =>
    rw [List.append_nil]
    exact h
  | cons p after ih =>
    have hsplit : before ++ p :: after = (before ++ [p]) ++ after := by simp
    have hlen : before.length + 1 = (before ++ [p]).length := by simp
    rw [Index.addAll, hsplit, hlen]
    refine ih (h.add (hnew before p after rfl)) fun front q back he => hnew front q back ?_
    rw [hsplit]
    exact he

/-- The index of the first parts of a level with names apart. -/
theorem covers_ofParts {t : Template} (h : t.NamesApart) {before after : List Part}
    (hsplit : t.parts = before ++ after) : (ofParts before).Covers before := by
  refine covers_empty.addAll fun front p back he => ?_
  have hwhole : t.parts = front ++ p :: (back ++ after) := by
    rw [hsplit, ← List.nil_append before, he]
    simp
  exact h.newIn hwhole

end Index

/-! ## Names of parsed templates -/

/-- No part of the template has the empty name, on no level. -/
inductive Template.Named : Template → Prop
  | mk {t : Template} (here : ∀ p ∈ t.parts, p.name? ≠ some [])
      (inside : ∀ n ∈ t.nestedList, Named n.template) : Named t

theorem Template.Named.here {t : Template} (h : t.Named) : ∀ p ∈ t.parts, p.name? ≠ some [] := by
  cases h
  assumption

theorem Template.Named.inside {t : Template} (h : t.Named) :
    ∀ n ∈ t.nestedList, n.template.Named := by
  cases h
  assumption

/-- The parts can stand on a level with names. -/
def Part.AllNamed (parts : List Part) : Prop :=
  ∀ stamp, (Template.mk stamp parts).Named

theorem Part.AllNamed.cons {p : Part} {parts : List Part} (h : Part.AllNamed parts)
    (hp : p.name? ≠ some []) (hn : ∀ n, p.nested? = some n → n.template.Named) :
    Part.AllNamed (p :: parts) := by
  refine fun stamp => .mk (List.forall_mem_cons.2 ⟨hp, (h stamp).here⟩) fun n hmem => ?_
  obtain ⟨q, hq, he⟩ := List.mem_filterMap.1 hmem
  rcases List.mem_cons.1 hq with rfl | hq
  · exact hn n he
  · exact (h stamp).inside n (List.mem_filterMap.2 ⟨q, hq, he⟩)

/-- Variables, tags and includes without a name are refused. -/
theorem Parsing.Ensures.level_named {inv : Cache SourceId Template → Prop} {d : Draft}
    {load : Text → Nat → Parsing Template}
    (h : ∀ path pos, Ensures inv (load path pos) Template.Named) (names : LevelNames)
    (pieces : List Piece) : Ensures inv (level d load names pieces) Part.AllNamed := by
  induction names, pieces using level_induction with
  | nil names =>
    rw [level_nil]
    exact .pure fun stamp => .mk nofun nofun
  | text names content rest ih =>
    rw [level_text]
    exact .bind ih fun tail ht => .pure (ht.cons nofun nofun)
  | fault names t rest f hj =>
    rw [level_token, hj]
    exact .throw _
  | var names t rest kind name hj ih =>
    rw [level_token, hj]
    obtain ⟨body, -, -, hname, -⟩ := LevelNames.judge_var hj
    exact .bind ih fun tail ht => .pure (ht.cons (mt Option.some.inj hname) nofun)
  | opens names t rest name inner c after hj ih₁ ih₂ =>
    rw [level_token, hj]
    obtain ⟨-, hname, -, -⟩ := LevelNames.judge_opens hj
    refine .bind ih₁ fun body hb => .freshStamp_bind fun serial => .bind ih₂ fun tail ht => ?_
    refine .pure (ht.cons (mt Option.some.inj hname) fun n hn => ?_)
    cases hn
    exact hb _
  | includes names t rest name path hj ih =>
    rw [level_token, hj]
    obtain ⟨arg, -, -, -, hname, -⟩ := LevelNames.judge_includes hj
    refine .bind (h path t.pos) fun template hw => .bind ih fun tail ht => ?_
    refine .pure (ht.cons (mt Option.some.inj hname) fun n hn => ?_)
    cases hn
    exact hw

theorem Parser.hereditary_named (p : Parser) : p.Hereditary Template.Named := by
  intro inv load id source h
  unfold Parser.parseWith
  refine .freshStamp_bind fun serial => .lift_bind fun d _ => ?_
  exact .bind (.level_named (h d) _ _) fun parts hp => .pure (hp _)

theorem Template.Parsed.named {t : Template} (h : t.Parsed) : t.Named :=
  h.of_hereditary Parser.hereditary_named fun _ ht => ht.inside

/-! ## Lookups -/

namespace Index

variable {index : Index} {t : Template} {name : Text} {ps : List Nat} {i : Nat}

theorem Covers.positions? (h : index.Covers t.parts) (name : Text) :
    index.positions? name = if t.positions name = [] then none else some (t.positions name) := by
  have hvars : (index.vars.get? name).getD [] = t.positions name := h.vars name
  have hnone := h.noneEmpty name
  unfold Index.positions?
  cases hp : index.vars.get? name with
  | none =>
    rw [hp] at hvars
    exact (if_pos hvars.symm).symm
  | some ps =>
    rw [hp] at hvars hnone
    rw [if_neg fun he => hnone (congrArg some (hvars.trans he)), ← hvars]
    rfl

/-- The positions of a variable are all of its positions, in ascending order. -/
theorem Covers.positions?_eq_some_iff (h : index.Covers t.parts) :
    index.positions? name = some ps ↔ ps ≠ [] ∧ ps.Pairwise (· < ·) ∧
      ∀ i, i ∈ ps ↔ ∃ kind raw, t.parts[i]? = some (.var name kind raw) := by
  have hsorted : (t.positions name).Pairwise (· < ·) := Template.pairwise_positionsFrom _ 0 _
  rw [h.positions? name]
  constructor
  · intro hps
    split at hps
    · cases hps
    · rename_i hne
      cases hps
      exact ⟨hne, hsorted, fun i => Template.mem_positions_iff_var⟩
  · rintro ⟨hne, hps, hmem⟩
    obtain rfl : ps = t.positions name :=
      hps.eq_of_mem_iff hsorted fun i => (hmem i).trans Template.mem_positions_iff_var.symm
    exact if_neg hne

theorem Covers.positions?_eq_none_iff (h : index.Covers t.parts) :
    index.positions? name = none ↔
      ∀ (i : Nat) kind raw, t.parts[i]? ≠ some (.var name kind raw) := by
  rw [h.positions? name]
  constructor
  · intro hnone i kind raw hi
    split at hnone
    · rename_i hnil
      have hmem := Template.mem_positions_iff_var.2 ⟨kind, raw, hi⟩
      rw [hnil] at hmem
      cases hmem
    · cases hnone
  · intro hnone
    refine if_pos (List.eq_nil_iff_forall_not_mem.2 fun i hi => ?_)
    obtain ⟨kind, raw, hi⟩ := Template.mem_positions_iff_var.1 hi
    exact hnone i kind raw hi

theorem Covers.hasVariable_eq (h : index.Covers t.parts) :
    index.hasVariable name = t.hasVariable name := by
  have hsome : index.hasVariable name = (index.positions? name).isSome := rfl
  rw [hsome, h.positions? name, Bool.eq_iff_iff, Template.hasVariable_iff]
  by_cases hnil : t.positions name = []
  · simp [hnil]
  · rw [if_neg hnil]
    exact ⟨fun _ => List.exists_mem_of_ne_nil _ hnil, fun _ => rfl⟩

theorem Covers.hasNested_eq (h : index.Covers t.parts) :
    index.hasNested name = t.hasNested name := by
  unfold hasNested Table.has Template.hasNested
  rw [h.nested, List.findIdx?_isSome]

/-- The position of a nested template is the only position of one with its name. -/
theorem Covers.nestedPosition?_eq_some_iff (h : index.Covers t.parts) (ht : t.NamesApart) :
    index.nestedPosition? name = some i ↔
      ∃ form stamp body, t.parts[i]? = some (.nested name form stamp body) := by
  have hat : ∀ p : Part, p.isNested name = true ↔
      ∃ form stamp body, p = .nested name form stamp body := by
    intro p
    cases p <;> simp [Part.isNested]
  unfold nestedPosition?
  rw [h.nested, List.findIdx?_eq_some_iff_getElem]
  constructor
  · rintro ⟨hi, hp, -⟩
    obtain ⟨form, stamp, body, hp⟩ := (hat _).1 hp
    exact ⟨form, stamp, body, hp ▸ List.getElem?_eq_getElem hi⟩
  · rintro ⟨form, stamp, body, hi⟩
    obtain ⟨hlt, hp⟩ := List.getElem?_eq_some_iff.1 hi
    refine ⟨hlt, (hat _).2 ⟨form, stamp, body, hp⟩, fun j hj hname => ?_⟩
    -- No nested template before it has the name.
    have hsplit : t.parts = t.parts.take i ++ t.parts[i] :: t.parts.drop (i + 1) := by simp
    rw [hp] at hsplit
    have hnew := (ht.newIn hsplit).2
    rw [List.any_eq_false] at hnew
    exact hnew _ (List.mem_take_iff_getElem.2 ⟨j, by omega, rfl⟩) hname

/-- The index is that of the template: its names are those of its parts at their first occurrences,
and each name leads to all parts that have it. -/
structure Exact (index : Index) (t : Template) : Prop where
  names : index.names = firsts (t.parts.filterMap Part.name?)
  once : index.names.Nodup
  positions : ∀ name ps, index.positions? name = some ps ↔ ps ≠ [] ∧ ps.Pairwise (· < ·) ∧
    ∀ i, i ∈ ps ↔ ∃ kind raw, t.parts[i]? = some (.var name kind raw)
  absent : ∀ name, index.positions? name = none ↔
    ∀ (i : Nat) kind raw, t.parts[i]? ≠ some (.var name kind raw)
  nested : ∀ name i, index.nestedPosition? name = some i ↔
    ∃ form stamp body, t.parts[i]? = some (.nested name form stamp body)
  apart : ∀ name, ¬ (index.hasVariable name = true ∧ index.hasNested name = true)
  partition : (index.variableNames ++ index.nestedNames).Perm index.names
  nonempty : [] ∉ index.names

end Index

/-- **Indices are exact.** The index of every template that a parser gives, and of everything nested
in it, has its names once each in the order of their first occurrence, none of them empty; it has
all positions of each variable in ascending order, and the only position of each nested template.
Each name is that of variables or that of a nested template, and not both; and when a nested
template is entered, there is no entry of its name yet. -/
theorem Template.Parsed.index_exact {t : Template} (h : t.Parsed) : t.index.Exact t ∧
    ∀ before name form stamp body after,
      t.parts = before ++ .nested name form stamp body :: after →
        (Index.ofParts before).nestedPosition? name = none := by
  have hapart := h.wellNamed.apart
  have hcovers : t.index.Covers t.parts := Index.covers_ofParts hapart (List.append_nil _).symm
  have hexclude : ∀ name, t.hasNested name = true → t.hasVariable name = false := by
    intro name hname
    obtain ⟨n, hn⟩ := Option.isSome_iff_exists.1 (hasNested_iff.1 hname)
    obtain ⟨hmem, rfl⟩ := mem_nestedList_of_nested? hn
    exact hapart.noVariable n hmem
  refine ⟨⟨hcovers.names, ?_, fun name ps => hcovers.positions?_eq_some_iff,
    fun name => hcovers.positions?_eq_none_iff,
    fun name i => hcovers.nestedPosition?_eq_some_iff hapart, ?_, ?_, ?_⟩, ?_⟩
  · rw [hcovers.names]
    exact nodup_firsts _
  · rintro name ⟨hvar, hnested⟩
    rw [hcovers.hasVariable_eq] at hvar
    rw [hcovers.hasNested_eq] at hnested
    rw [hexclude name hnested] at hvar
    cases hvar
  · have hpartition : t.index.nestedNames =
        t.index.names.filter fun name => !t.index.hasVariable name := by
      refine List.filter_congr fun name hname => ?_
      rw [hcovers.hasVariable_eq, hcovers.hasNested_eq]
      rw [hcovers.names] at hname
      cases hnested : t.hasNested name with
      | true => rw [hexclude name hnested]; rfl
      | false =>
        rcases mem_names_cases hname with hvar | ⟨n, hn, rfl⟩
        · rw [hvar]
          rfl
        · rw [hasNested_of_mem hn] at hnested
          cases hnested
    rw [hpartition]
    exact List.filter_append_perm _ _
  · rw [hcovers.names]
    intro hnil
    obtain ⟨p, hp, hname⟩ := mem_names.1 hnil
    exact h.named.here p hp hname
  · intro before name form stamp body after hsplit
    have hbefore := Index.covers_ofParts hapart hsplit
    exact hbefore.nestedPosition?_eq_none (hapart.newIn hsplit).2

/-- A variable on both sides of a nested template. -/
def Template.frame : Template :=
  ⟨⟨1, none⟩, [.var ['a'] .unspecified "~%a%".toList,
    .nested ['r'] (.inline "~%%begin:r%".toList "~%%end:r%".toList) ⟨2, none⟩
      [.var ['x'] .unspecified "~%x%".toList],
    .var ['a'] .unspecified "~%a%".toList]⟩

theorem Template.Parsed.index_exact_frame :
    Template.frame.Parsed ∧ Template.frame.index.Exact Template.frame := by
  have hp : (tokenize .standard "~%a%~%%begin:r%~%x%~%%end:r%~%a%".toList).pieces =
      [.token ⟨.var ['a'], 0, "~%a%".toList, [], []⟩,
        .token ⟨.opens ['r'], 4, "~%%begin:r%".toList, [], []⟩,
        .token ⟨.var ['x'], 15, "~%x%".toList, [], []⟩,
        .token ⟨.closes ['r'], 19, "~%%end:r%".toList, [], []⟩,
        .token ⟨.var ['a'], 28, "~%a%".toList, [], []⟩] := by
    decide
  have hd : Draft.ofSource Markers.standard.ditch (Stamp.origin ⟨1, none⟩)
      "~%a%~%%begin:r%~%x%~%%end:r%~%a%".toList = .ok ⟨Stamp.origin ⟨1, none⟩,
        "~%a%~%%begin:r%~%x%~%%end:r%~%a%".toList,
        "~%a%~%%begin:r%~%x%~%%end:r%~%a%".toList, []⟩ := rfl
  have h : ((Parser.parseText ⟨.standard, .none, true⟩
      "~%a%~%%begin:r%~%x%~%%end:r%~%a%".toList).on (.ofCapacity 0)).1 = .ok frame := by
    unfold Parser.parseText
    rw [Parser.on_parseWith_ok _ hd]
    dsimp only
    rw [hp]
    simp [level_token, LevelNames.judge, splitEnd, readVariable, Text.splitOnce, level_nil,
      LevelNames.uses, LevelNames.addNested, LevelNames.addVariable, LevelNames.empty, frame,
      Token.raw]
    rfl
  have hparsed : frame.Parsed := .parseText (.new 0) h
  exact ⟨hparsed, hparsed.index_exact.1⟩

end Stencil
