import Stencil.Proofs.Session.Frame

/-!
# Repetitions of one source

When a number of items is refused because of what is bound on the level already.

**Silent items** (`State.silent`). A wrong number of items is reported before anything is asked of
an item. With the right number the items are grown, and an item may fail with such a report as well,
even about a nested template of the same name and the same numbers. But items that have nothing for
any name never fail. By them the two reports are told apart.

**Calls** (`Session.populate_mismatch_iff`). So a number of items is refused for what it is exactly
if the source is bound to another number on the level.
-/

namespace Stencil

namespace State

variable {s x : State} {t : Template} {name : Text} {n : Nested}

/-! ## One level -/

section Level

variable {σ : Type} {accessor : Accessor σ} {escaper : Escaper} {kind : EscapeKind}
  {items : List σ} {names? : Option (List Text)} {count : Nat}

/-- Binding a name that a level has is binding its nested template. -/
theorem populate_eq (hn : x.template.nested? name = some n) :
    x.populate accessor escaper kind name items names? =
      x.populateWith n (grow accessor escaper kind n.template names?) items names? := by
  unfold populate
  rw [hn]

/-- **Another number of repetitions of the source is reported**, whatever the items have. -/
theorem populate_of_shares (hx : x.Consistent) (ht : x.template.SerialsApart)
    (hn : x.template.nested? name = some n) (hopen : name ∉ x.resolved) (h : x.Shares n count)
    (hne : count ≠ items.length) :
    x.populate accessor escaper kind name items names? =
      .error (.session (.repetitionMismatch name count items.length)) := by
  obtain ⟨hmem, rfl⟩ := Template.mem_nestedList_of_nested? hn
  rw [populate_eq hn]
  exact populateWith_eq_mismatch hopen ((hx.repetitions_iff_shares ht hmem hopen).2 h) hne

/-- **If there is no other number of repetitions of the source, the items are grown.** -/
theorem populate_of_no_other (hx : x.Consistent) (ht : x.template.SerialsApart)
    (hn : x.template.nested? name = some n) (hopen : name ∉ x.resolved)
    (h : ∀ count, x.Shares n count → count = items.length) :
    x.populate accessor escaper kind name items names? =
      x.grown n (grow accessor escaper kind n.template names?) items names? := by
  obtain ⟨hmem, rfl⟩ := Template.mem_nestedList_of_nested? hn
  rw [populate_eq hn]
  exact populateWith_eq_grown hopen fun k hk =>
    h k ((hx.repetitions_iff_shares ht hmem hopen).1 hk)

end Level

/-! ## Silent items -/

section Silent

variable {σ : Type} {escaper : Escaper} {kind : EscapeKind} {item : σ}

/-- Items that have nothing for any name. -/
def silent (σ : Type) : Accessor σ := fun _ _ => .ok .absent

/-- A silent item leaves a name open. -/
theorem seedName_silent (hw : t.WellNamed) (hname : name ∈ t.names) :
    seedName (silent σ) escaper kind t item s name = .ok s := by
  rcases Template.mem_names_cases hname with hv | ⟨n, hn, rfl⟩
  · exact (bindName_variable_iff hv).2 (.inl ⟨rfl, rfl⟩)
  · have hfound := hw.apart.nested?_eq_some_iff.2 ⟨hn, rfl⟩
    exact (bindName_nested_iff (hw.apart.noVariable n hn) hfound).2 (.inl ⟨rfl, rfl⟩)

theorem bindNames_silent (hw : t.WellNamed) (names : List Text)
    (hnames : ∀ name ∈ names, name ∈ t.names) :
    bindNames (seedName (silent σ) escaper kind t item) s names = (s, .ok ()) := by
  induction names with
  | nil => rfl
  | cons name rest ih =>
    have hrest := ih fun other ho => hnames other (List.mem_cons_of_mem name ho)
    unfold bindNames
    split
    · exact hrest
    · rw [seedName_silent hw (hnames name List.mem_cons_self)]
      exact hrest

/-- **Silent items can be grown**, over names that the template has. -/
theorem grow_silent (hw : t.WellNamed) {names? : Option (List Text)}
    (hnames : ∀ name ∈ names?.getD [], name ∈ t.names) :
    grow (silent σ) escaper kind t names? item = .ok (.new t) := by
  rw [grow_eq_ok_iff]
  refine bindNames_silent hw _ fun name hname => ?_
  cases names? with
  | none => exact hname
  | some names => exact hnames name hname

/-- Growing silent items reports no number of repetitions. -/
theorem grown_silent_ne_mismatch (hw : n.template.WellNamed) (items : List σ)
    (names? : Option (List Text)) (expected actual : Nat) :
    x.grown n (grow (silent σ) escaper kind n.template names?) items names? ≠
      .error (.session (.repetitionMismatch name expected actual)) := by
  unfold grown
  split
  · simp
  · rename_i hnone
    have hknown : ∀ name ∈ names?.getD [], name ∈ n.template.names := by
      simpa using List.find?_eq_none.1 hnone
    have hgrow : ∀ item ∈ items,
        ∃ c, grow (silent σ) escaper kind n.template names? item = .ok c :=
      fun item _ => ⟨_, grow_silent hw hknown⟩
    obtain ⟨states, hstates⟩ := exists_mapM_ok_iff.2 hgrow
    rw [hstates]
    simp [Except.map]

end Silent

end State

/-! ## Sessions -/

namespace Session

variable {s : Session} {t : Template}

theorem Reachable.level (ht : t.Parsed) (hs : Reachable t s) {scope : State.Scope} {x : State}
    (hx : s.state.at? scope = some x) : x.Sound ∧ x.template.Parsed := by
  obtain ⟨hsound, hparsed⟩ := (hs.soundFor ht.wellNamed).at? (fun _ h _ hn => h.nested hn) ht hx
  exact ⟨hsound.sound, hparsed⟩

/-- **A number of repetitions is refused exactly if the source is bound to another one.** On every
level of every session of a parsed template that can be reached, for a nested template that is
open: a number of items is reported as a mismatch, whatever the items have, exactly if a nested
template of the same source is bound on the level to another number, and this is the one that is
reported as expected. If there is none, binding comes to growing the items. Nested templates of the
level that are told to be the same are included, both from one source. Inline templates have no
source, and so they share none. -/
theorem populate_mismatch_iff (ht : t.Parsed) (hs : Reachable t s) {scope : State.Scope} {x : State}
    (hx : s.state.at? scope = some x) {name : Text} {n : Nested}
    (hn : x.template.nested? name = some n) (hopen : name ∉ x.resolved) {σ : Type}
    (items : List σ) (kind : EscapeKind) (names? : Option (List Text)) :
    (∀ expected, (∀ accessor : Accessor σ,
        x.populate accessor s.escaper kind name items names? =
          .error (.session (.repetitionMismatch name expected items.length))) ↔
        x.Shares n expected ∧ expected ≠ items.length) ∧
      ((∀ count, x.Shares n count → count = items.length) → ∀ accessor : Accessor σ,
        x.populate accessor s.escaper kind name items names? =
          x.grown n (State.grow accessor s.escaper kind n.template names?) items names?) ∧
      (∀ m ∈ x.template.nestedList, ∀ m' ∈ x.template.nestedList, m ≠ m' →
        m.template.id = m'.template.id →
          ∃ id, m.template.stamp.source = some id ∧ m'.template.stamp.source = some id ∧
            (∃ path raw, m.form = .included path raw) ∧
              ∃ path raw, m'.form = .included path raw) ∧
      ∀ m ∈ x.template.nestedList, ∀ opener closer, m.form = .inline opener closer →
        m.template.stamp.source = none := by
  obtain ⟨hsound, hparsed⟩ := hs.level ht hx
  have hlevel := hsound.level
  have hapart := hparsed.numbered.apart
  have hwell : n.template.WellNamed :=
    (hparsed.nested (Template.mem_nestedList_of_nested? hn).1).wellNamed
  refine ⟨fun expected => ⟨fun hall => ?_, fun h accessor => ?_⟩, fun hno accessor => ?_,
    fun m hm m' hm' hne hid => hparsed.included_of_id_eq hm hm' hne hid,
    fun m hm => hparsed.inlineAnonymous.level m hm⟩
  · -- The report does not come out of an item, since it comes with silent ones as well.
    have hsilent := hall (State.silent σ)
    by_cases hother : ∃ count, x.Shares n count ∧ count ≠ items.length
    · obtain ⟨count, hcount, hne⟩ := hother
      rw [State.populate_of_shares hlevel hapart hn hopen hcount hne] at hsilent
      cases hsilent
      exact ⟨hcount, hne⟩
    · have hno : ∀ count, x.Shares n count → count = items.length :=
        fun count hcount => by_contra fun hne => hother ⟨count, hcount, hne⟩
      rw [State.populate_of_no_other hlevel hapart hn hopen hno] at hsilent
      exact absurd hsilent (State.grown_silent_ne_mismatch hwell items names? _ _)
  · exact State.populate_of_shares hlevel hapart hn hopen h.1 h.2
  · exact State.populate_of_no_other hlevel hapart hn hopen hno

/-- A resolver that finds one text at every path. -/
def fixed : Resolver where
  locate := fun path => .ok (some ⟨['m'], path⟩)
  read := fun _ => .ok (Text.toBytes "~%x%".toList)
  reach := 1

/-- An include of one source under a name, as an instance of its own. -/
def twin (name : Char) (serial : Nat) : Nested where
  name := [name]
  form := .included ['p'] ("~%%include:".toList ++ name :: ":p%".toList)
  template := ⟨⟨serial, some ⟨['m'], ['p']⟩⟩, [.var ['x'] .unspecified "~%x%".toList]⟩

/-- A source that is included twice. -/
def twins : Template :=
  ⟨⟨1, none⟩, [twin 'a' 2, twin 'b' 3].map fun n =>
    .nested n.name n.form n.template.stamp n.template.parts⟩

/-- An include of the source parses it, without a claim if the cache has no room. -/
theorem load_twin {c c' : Cache SourceId Template}
    (h : c.lookup 0 ⟨['m'], ['p']⟩ = (.alone, c')) (d : Draft) (pos serial : Nat) :
    (Parser.loadFromTop ⟨.standard, fixed, true⟩ d ['p'] pos).on (c, serial) =
      (.ok (twin 'a' serial).template,
        (c'.finish false ⟨['m'], ['p']⟩ (some (twin 'a' serial).template), serial + 1)) := by
  have hp : (tokenize .standard "~%x%".toList).pieces =
      [.token ⟨.var ['x'], 0, "~%x%".toList, [], []⟩] := by
    decide
  have hread : Parser.readText ⟨.standard, fixed, true⟩ ⟨['m'], ['p']⟩ = .ok "~%x%".toList := by
    decide
  have hd : Draft.ofSource Markers.standard.ditch (Stamp.origin ⟨serial, some ⟨['m'], ['p']⟩⟩)
      "~%x%".toList = .ok ⟨Stamp.origin ⟨serial, some ⟨['m'], ['p']⟩⟩, "~%x%".toList,
        "~%x%".toList, []⟩ := rfl
  refine (Parser.loadId_of_missed rfl false h hread 1 [] serial).trans ?_
  rw [Parser.on_parseWith_ok _ hd]
  dsimp only
  rw [hp]
  simp [level_token, LevelNames.judge, readVariable, Text.splitOnce, level_nil, LevelNames.empty,
    Token.raw]
  rfl

/-- Nothing is kept in a cache without room, so the source is parsed for each of its includes. -/
theorem parsed_twins : twins.Parsed := by
  have hp : (tokenize .standard "~%%include:a:p%~%%include:b:p%".toList).pieces =
      [.token ⟨.includes "a:p".toList, 0, "~%%include:a:p%".toList, [], []⟩,
        .token ⟨.includes "b:p".toList, 15, "~%%include:b:p%".toList, [], []⟩] := by
    decide
  have hd : Draft.ofSource Markers.standard.ditch (Stamp.origin ⟨1, none⟩)
      "~%%include:a:p%~%%include:b:p%".toList = .ok ⟨Stamp.origin ⟨1, none⟩,
        "~%%include:a:p%~%%include:b:p%".toList, "~%%include:a:p%~%%include:b:p%".toList, []⟩ :=
    rfl
  have ha : LevelNames.empty.judge
      ⟨.includes "a:p".toList, 0, "~%%include:a:p%".toList, [], []⟩
      [.token ⟨.includes "b:p".toList, 15, "~%%include:b:p%".toList, [], []⟩] =
        .includes ['a'] ['p'] := rfl
  have hb : (LevelNames.empty.addNested ['a']).judge
      ⟨.includes "b:p".toList, 15, "~%%include:b:p%".toList, [], []⟩ [] =
        .includes ['b'] ['p'] := rfl
  have h : ((Parser.parseText ⟨.standard, fixed, true⟩
      "~%%include:a:p%~%%include:b:p%".toList).on (.ofCapacity 0)).1 = .ok twins := by
    unfold Parser.parseText
    rw [Parser.on_parseWith_ok _ hd]
    dsimp only
    rw [hp, level_token, ha]
    dsimp only
    rw [level_token, hb]
    dsimp only
    rw [level_nil, Parsing.on_bind, Parsing.on_bind, load_twin rfl]
    dsimp only
    rw [Parsing.on_bind, Parsing.on_bind, load_twin rfl]
    rfl
  exact .parseText (.new 0) h

/-- The first instance has two repetitions, so the second one is refused three. -/
theorem populate_mismatch_iff_twins :
    twins.Parsed ∧ ∃ s, Reachable twins s ∧ ∀ accessor : Accessor Nat,
      s.state.populate accessor s.escaper .html ['b'] [0, 1, 2] none =
        .error (.session (.repetitionMismatch ['b'] 2 3)) := by
  let s := (new twins).perform
    (.change [] (.populate (State.silent Nat) ['a'] [0, 1] .html none))
  have hs : Reachable twins s := .perform .new _
  have hroot : s.state.at? [] = some s.state := rfl
  have htemplate : s.state.template = twins := (hs.soundFor parsed_twins.wellNamed).template
  have hresolved : s.state.resolved = [['a']] := by decide +kernel
  have hfound : s.state.template.nested? ['b'] = some (twin 'b' 3) := by
    rw [htemplate]
    rfl
  have hopen : ['b'] ∉ s.state.resolved := by
    rw [hresolved]
    decide
  have hshares : s.state.Shares (twin 'b' 3) 2 := by
    refine ⟨twin 'a' 2, ?_, ?_, by decide +kernel, ⟨['m'], ['p']⟩, rfl, rfl⟩
    · rw [htemplate]
      exact List.mem_cons_self
    · rw [hresolved]
      exact List.mem_cons_self
  obtain ⟨hmismatch, -⟩ :=
    populate_mismatch_iff parsed_twins hs hroot hfound hopen ([0, 1, 2] : List Nat) .html none
  exact ⟨parsed_twins, s, hs, (hmismatch 2).2 ⟨hshares, by decide⟩⟩

end Session

end Stencil
