import Stencil.Proofs.Parsing.Includes
import Stencil.Proofs.Template.Names

/-!
# Trees of parsed templates

**Nested templates of a level** (`plainLevel_nested`). Each is what its include leads to, or the
level of the pieces between its two tags.

**Conditions on nested templates** (`plainLevel_contains`). What holds of inline templates, of what
includes lead to, and of all that is nested in those, holds of everything nested in a level.

**Included templates** (`Parser.Faithful`). Wherever an included template stands in a tree, it is
what the source at its path parses to on its own, below an empty stack.
-/

namespace Stencil

/-! ## Templates in templates -/

/-- The nested template stands somewhere in the template. -/
inductive Template.Contains : Template → Nested → Prop
  | here {t : Template} {n : Nested} (h : n ∈ t.nestedList) : Contains t n
  | inside {t : Template} {n k : Nested} (h : n ∈ t.nestedList) (hk : Contains n.template k) :
      Contains t k

/-- The nested template without the serial numbers in it. -/
def Nested.unnumbered (n : Nested) : Nested := ⟨n.name, n.form, n.template.unnumbered⟩

theorem Part.nested?_unnumbered (p : Part) :
    p.unnumbered.nested? = p.nested?.map Nested.unnumbered := by
  cases p <;> rfl

theorem Part.allUnnumbered_eq_map (ps : List Part) :
    Part.allUnnumbered ps = ps.map Part.unnumbered := by
  induction ps with
  | nil => rfl
  | cons p ps ih => rw [Part.allUnnumbered, ih, List.map_cons]

theorem Template.nestedList_unnumbered (t : Template) :
    t.unnumbered.nestedList = t.nestedList.map Nested.unnumbered := by
  show (Part.allUnnumbered t.parts).filterMap Part.nested? =
    (t.parts.filterMap Part.nested?).map Nested.unnumbered
  rw [Part.allUnnumbered_eq_map, List.filterMap_map, List.map_filterMap]
  exact List.filterMap_congr fun p _ => p.nested?_unnumbered

theorem Template.Contains.unnumbered {t : Template} {n : Nested} (h : t.Contains n) :
    t.unnumbered.Contains n.unnumbered := by
  induction h with
  | here h =>
    refine .here ?_
    rw [nestedList_unnumbered]
    exact List.mem_map_of_mem h
  | @inside t n k h _ ih =>
    have hmem : n.unnumbered ∈ t.unnumbered.nestedList := by
      rw [nestedList_unnumbered]
      exact List.mem_map_of_mem h
    exact .inside hmem ih

/-! ## Levels -/

variable {d : Draft} {load : Text → Nat → Except LoadError Template}

/-- **A nested template of a level** is what its include leads to, or the level of the pieces
between its tags. -/
theorem plainLevel_nested (names : LevelNames) (pieces : List Piece) {parts : List Part}
    (h : plainLevel d load names pieces = .ok parts) {n : Nested}
    (hn : n ∈ parts.filterMap Part.nested?) :
    (∃ path raw pos, n.form = .included path raw ∧ path ∈ includePaths pieces ∧
        load path pos = .ok n.template) ∨
      ∃ before t inner c after, pieces = before ++ .token t :: (inner ++ .token c :: after) ∧
        n.form = .inline t.raw c.raw ∧ n.template.stamp = ⟨0, none⟩ ∧
        plainLevel d load .empty inner = .ok n.template.parts := by
  induction names, pieces using level_induction generalizing parts with
  | nil names =>
    rw [plainLevel_nil] at h
    cases h
    cases hn
  | text names content rest ih =>
    rw [plainLevel_text] at h
    obtain ⟨tail, ht, h⟩ := bind_eq_ok h
    cases h
    rcases ih ht hn with hinc | ⟨before, t, inner, c, after, rfl, hinl⟩
    · exact .inl hinc
    · exact .inr ⟨.text content :: before, t, inner, c, after, rfl, hinl⟩
  | fault names t rest f hj =>
    rw [plainLevel_token, hj] at h
    cases h
  | var names t rest kind name hj ih =>
    rw [plainLevel_token, hj] at h
    obtain ⟨tail, ht, h⟩ := bind_eq_ok h
    cases h
    rcases ih ht hn with hinc | ⟨before, t', inner, c, after, rfl, hinl⟩
    · rw [includePaths_var hj]
      exact .inl hinc
    · exact .inr ⟨.token t :: before, t', inner, c, after, rfl, hinl⟩
  | opens names t rest name inner c after hj ih₁ ih₂ =>
    rw [plainLevel_token, hj] at h
    obtain ⟨body, hb, h⟩ := bind_eq_ok h
    obtain ⟨tail, ht, h⟩ := bind_eq_ok h
    cases h
    obtain ⟨-, -, hs, -⟩ := LevelNames.judge_opens hj
    obtain ⟨rfl, -⟩ := splitEnd_eq_some hs
    rcases List.mem_cons.1 hn with rfl | hn
    · exact .inr ⟨[], t, inner, c, after, rfl, rfl, rfl, hb⟩
    rw [includePaths_opens hj]
    rcases ih₂ ht hn with hinc | ⟨before, t', inner', c', after', rfl, hinl⟩
    · obtain ⟨path, raw, pos, hform, hpath, hl⟩ := hinc
      exact .inl ⟨path, raw, pos, hform, List.mem_append_right _ hpath, hl⟩
    · refine .inr ⟨.token t :: (inner ++ .token c :: before), t', inner', c', after', ?_, hinl⟩
      simp
  | includes names t rest name path hj ih =>
    rw [plainLevel_token, hj] at h
    obtain ⟨template, hl, h⟩ := bind_eq_ok h
    obtain ⟨tail, ht, h⟩ := bind_eq_ok h
    cases h
    rw [includePaths_includes hj]
    rcases List.mem_cons.1 hn with rfl | hn
    · exact .inl ⟨path, t.raw, t.pos, rfl, List.mem_cons_self, hl⟩
    rcases ih ht hn with hinc | ⟨before, t', inner, c, after, rfl, hinl⟩
    · obtain ⟨path', raw, pos, hform, hpath, hl'⟩ := hinc
      exact .inl ⟨path', raw, pos, hform, List.mem_cons_of_mem _ hpath, hl'⟩
    · exact .inr ⟨.token t :: before, t', inner, c, after, rfl, hinl⟩

/-- The include tags between two tags of a level are among those of the level. -/
theorem mem_includePaths_inner {before inner after : List Piece} {t c : Token} {path : Text}
    (h : path ∈ includePaths inner) :
    path ∈ includePaths (before ++ .token t :: (inner ++ .token c :: after)) := by
  have hinner : inner <+: inner ++ .token c :: after := List.prefix_append _ _
  have hrest : inner ++ .token c :: after <:+ before ++ .token t :: (inner ++ .token c :: after) :=
    ((List.suffix_cons _ _).trans (List.suffix_append _ _))
  obtain ⟨p, hp, hpath⟩ := List.mem_filterMap.1 h
  exact List.mem_filterMap.2 ⟨p, hrest.subset (hinner.subset hp), hpath⟩

/-- **What holds of inline templates, of what includes lead to, and of all that is nested in that,
holds of everything nested in a level.** -/
theorem plainLevel_contains (good : Nested → Prop)
    (hinline : ∀ n opener closer, n.form = .inline opener closer → good n)
    {names : LevelNames} {pieces : List Piece} {parts : List Part} {stamp : Stamp}
    (hload : ∀ path ∈ includePaths pieces, ∀ pos t, load path pos = .ok t →
      (∀ n raw, n.form = .included path raw → n.template = t → good n) ∧
        ∀ k, t.Contains k → good k)
    (h : plainLevel d load names pieces = .ok parts) {k : Nested}
    (hk : (Template.mk stamp parts).Contains k) : good k := by
  generalize hT : Template.mk stamp parts = T at hk
  induction hk generalizing names pieces parts stamp with
  | @here T n hn =>
    subst hT
    rcases plainLevel_nested names pieces h hn with
      ⟨path, raw, pos, hform, hpath, hl⟩ | ⟨_, t, _, c, _, -, hform, -⟩
    · exact (hload path hpath pos _ hl).1 n raw hform rfl
    · exact hinline n _ _ hform
  | @inside T n k hn hk ih =>
    subst hT
    rcases plainLevel_nested names pieces h hn with
      ⟨path, raw, pos, hform, hpath, hl⟩ | ⟨_, t, inner, c, _, rfl, -, -, hinner⟩
    · exact (hload path hpath pos _ hl).2 k hk
    · exact ih (fun path hp => hload path (mem_includePaths_inner hp)) hinner rfl

/-! ## Included templates -/

namespace Parser

variable {p : Parser} {stack : List SourceId} {id : SourceId} {n : Nat} {t : Template}

/-- An included template is what the source at its path parses to on its own. -/
def Faithful (p : Parser) (n : Nested) : Prop :=
  ∀ path raw, n.form = .included path raw →
    ∃ id, p.locate path = .ok (some id) ∧ p.plainId p.depth [] id = .ok n.template

/-- An include that leads to a template has located its source. -/
theorem plainIncluded_ok {load : SourceId → Except LoadError Template} {path : Text} {pos : Nat}
    (h : p.plainIncluded load stack d path pos = .ok t) :
    ∃ b, p.locate path = .ok (some b) ∧ load b = .ok t := by
  cases hl : p.locate path with
  | error e =>
    unfold plainIncluded at h
    rw [hl] at h
    cases h
  | ok id? =>
    cases id? with
    | none =>
      unfold plainIncluded at h
      rw [hl] at h
      cases h
    | some b =>
      rw [plainIncluded_some hl] at h
      split at h
      · cases h
      · exact ⟨b, rfl, h⟩

/-- The included templates of a text are faithful if those of the sources it mentions are. -/
theorem plainWith_faithful {of : Option SourceId} {source : Text} (hn : n ≤ p.depth)
    (hload : ∀ b t, p.plainId n stack b = .ok t → ∀ k, t.Contains k → p.Faithful k)
    (h : p.plainWith (p.plainIncluded (p.plainId n stack) stack) of source = .ok t) {k : Nested}
    (hk : t.Contains k) : p.Faithful k := by
  obtain ⟨d, -, h⟩ := bind_eq_ok h
  obtain ⟨parts, hparts, h⟩ := bind_eq_ok h
  cases h
  refine plainLevel_contains p.Faithful ?_ (fun path _ pos t ht => ?_) hparts hk
  · intro n opener closer hform path raw hform'
    rw [hform] at hform'
    cases hform'
  · obtain ⟨b, hl, hb⟩ := plainIncluded_ok ht
    refine ⟨fun n raw hform hn' path' raw' hform' => ⟨b, ?_, ?_⟩, hload b t hb⟩
    · rw [hform] at hform'
      cases hform'
      exact hl
    · rw [hn']
      exact plainId_restack hb hn fun _ _ => List.not_mem_nil

/-- **Every included template in a source that parses is faithful.** -/
theorem plainId_faithful (hn : n ≤ p.depth) (h : p.plainId n stack id = .ok t) {k : Nested}
    (hk : t.Contains k) : p.Faithful k := by
  induction n generalizing stack id t k with
  | zero => cases h
  | succ n ih =>
    obtain ⟨source, -, h⟩ := bind_eq_ok h
    exact plainWith_faithful (by omega) (fun b t hb k hk => ih (by omega) hb hk) h hk

end Parser

end Stencil
