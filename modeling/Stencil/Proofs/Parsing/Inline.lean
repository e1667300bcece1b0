import Stencil.Proofs.Cache.Transparency
import Stencil.Proofs.Markup.Standalone
import Stencil.Proofs.Parsing.Nesting
import Stencil.Proofs.Parsing.Relabel
import Stencil.Proofs.Parsing.Sources
import Stencil.Proofs.Parsing.Trees

/-!
# Inline templates are parsed as if alone

An inline template is a level of pieces that were cut in one go, with all that stands around them.

**Positions** (`plainLevel_unplaced`). A level that parses depends on the positions of its tokens
only through what includes lead to.

**The law** (`Parser.parseAs_inline`). The pieces between two tags stand alone, so parsing their
text gives the inline template again, at any depth; provided that the text around it has no ditch
word left in it. An included template was parsed from a source of its own, and there the law holds
of that source.
-/

namespace Stencil

/-! ## Positions -/

theorem Piece.unplaced_eq_relabel : Piece.unplaced = Piece.relabel Token.unplaced := by
  funext p
  cases p <;> rfl

theorem Token.raw_congr {t t' : Token} (h : t'.unplaced = t.unplaced) : t'.raw = t.raw := by
  have hraw : ∀ t : Token, t.unplaced.raw = t.raw := fun _ => rfl
  rw [← hraw t', ← hraw t, h]

variable {d d' : Draft} {load other : Text → Nat → Except LoadError Template}

/-- **A level that parses depends on positions only through its includes.** -/
theorem plainLevel_unplaced
    (hload : ∀ path pos pos' t, load path pos = .ok t → other path pos' = .ok t)
    (names : LevelNames) (pieces : List Piece) {pieces' : List Piece} {parts : List Part}
    (hp : pieces'.map Piece.unplaced = pieces.map Piece.unplaced)
    (h : plainLevel d load names pieces = .ok parts) :
    plainLevel d' other names pieces' = .ok parts := by
  have hkind : ∀ t : Token, t.unplaced.kind = t.kind := fun _ => rfl
  rw [Piece.unplaced_eq_relabel] at hp
  induction names, pieces using level_induction generalizing pieces' parts with
  | nil names =>
    rw [plainLevel_nil] at h
    cases h
    rw [List.map_eq_nil_iff.1 hp, plainLevel_nil]
  | text names content rest ih =>
    obtain ⟨rest', rfl, hrest⟩ := Piece.map_relabel_text hp
    rw [plainLevel_text] at h
    obtain ⟨tail, ht, h⟩ := bind_eq_ok h
    rw [plainLevel_text, ih hrest ht]
    exact h
  | fault names t rest f hj =>
    rw [plainLevel_token, hj] at h
    cases h
  | var names t rest kind name hj ih =>
    obtain ⟨t', rest', rfl, ht', hrest⟩ := Piece.map_relabel_token hp
    have hj' : names.judge t' rest' = .var kind name :=
      Verdict.relabel_eq_var ((LevelNames.judge_congr hkind ht' hrest).trans (congrArg _ hj))
    rw [plainLevel_token, hj] at h
    obtain ⟨tail, ht, h⟩ := bind_eq_ok h
    rw [plainLevel_token, hj']
    dsimp only
    rw [Token.raw_congr ht', ih hrest ht]
    exact h
  | opens names t rest name inner c after hj ih₁ ih₂ =>
    obtain ⟨t', rest', rfl, ht', hrest⟩ := Piece.map_relabel_token hp
    obtain ⟨inner', c', after', hj', hinner, hc, hafter⟩ :=
      Verdict.relabel_eq_opens ((LevelNames.judge_congr hkind ht' hrest).trans (congrArg _ hj))
    rw [plainLevel_token, hj] at h
    obtain ⟨body, hb, h⟩ := bind_eq_ok h
    obtain ⟨tail, ht, h⟩ := bind_eq_ok h
    rw [plainLevel_token, hj']
    dsimp only
    rw [Token.raw_congr ht', Token.raw_congr hc, ih₁ hinner hb, ok_bind, ih₂ hafter ht]
    exact h
  | includes names t rest name path hj ih =>
    obtain ⟨t', rest', rfl, ht', hrest⟩ := Piece.map_relabel_token hp
    have hj' : names.judge t' rest' = .includes name path :=
      Verdict.relabel_eq_includes ((LevelNames.judge_congr hkind ht' hrest).trans (congrArg _ hj))
    rw [plainLevel_token, hj] at h
    obtain ⟨template, hl, h⟩ := bind_eq_ok h
    obtain ⟨tail, ht, h⟩ := bind_eq_ok h
    rw [plainLevel_token, hj']
    dsimp only
    rw [Token.raw_congr ht', hload path t.pos t'.pos template hl, ok_bind, ih hrest ht]
    exact h

/-! ## Sources -/

mutual

theorem Part.source_unnumbered : ∀ p : Part, p.unnumbered.source = p.source
  | .text _ => rfl
  | .var _ _ _ => rfl
  | .nested _ (.inline opener closer) _ body => by
    rw [Part.unnumbered, Part.source, Part.source, sources_allUnnumbered body]
  | .nested _ (.included _ _) _ _ => rfl

theorem Part.sources_allUnnumbered :
    ∀ ps : List Part, Part.sources (Part.allUnnumbered ps) = Part.sources ps
  | [] => rfl
  | p :: ps => by
    rw [Part.allUnnumbered, Part.sources, Part.sources, source_unnumbered p,
      sources_allUnnumbered ps]

end

/-- Numbers do not show in the source. -/
theorem Template.source_unnumbered (t : Template) : t.unnumbered.source = t.source :=
  Part.sources_allUnnumbered t.parts

/-- The parts of a plain level, put together, are its pieces put together. -/
theorem plainLevel_sources (names : LevelNames) (pieces : List Piece) {parts : List Part}
    (h : plainLevel d load names pieces = .ok parts) :
    Part.sources parts = pieces.flatMap Piece.raw := by
  induction names, pieces using level_induction generalizing parts with
  | nil names =>
    rw [plainLevel_nil] at h
    cases h
    rfl
  | text names content rest ih =>
    rw [plainLevel_text] at h
    obtain ⟨tail, ht, h⟩ := bind_eq_ok h
    cases h
    exact congrArg (content ++ ·) (ih ht)
  | fault names t rest f hj =>
    rw [plainLevel_token, hj] at h
    cases h
  | var names t rest kind name hj ih =>
    rw [plainLevel_token, hj] at h
    obtain ⟨tail, ht, h⟩ := bind_eq_ok h
    cases h
    exact congrArg (t.raw ++ ·) (ih ht)
  | opens names t rest name inner c after hj ih₁ ih₂ =>
    rw [plainLevel_token, hj] at h
    obtain ⟨body, hb, h⟩ := bind_eq_ok h
    obtain ⟨tail, ht, h⟩ := bind_eq_ok h
    cases h
    obtain ⟨-, -, hs, -⟩ := LevelNames.judge_opens hj
    obtain ⟨rfl, -⟩ := splitEnd_eq_some hs
    simp [Part.sources, Part.source, Piece.raw, ih₁ hb, ih₂ ht]
  | includes names t rest name path hj ih =>
    rw [plainLevel_token, hj] at h
    obtain ⟨template, hl, h⟩ := bind_eq_ok h
    obtain ⟨tail, ht, h⟩ := bind_eq_ok h
    cases h
    exact congrArg (t.raw ++ ·) (ih ht)

/-! ## Inline templates -/

/-- The template stands in the other as an inline template, inside inline templates only. -/
inductive Template.Inlines : Template → Template → Prop
  | here {t : Template} {n : Nested} {opener closer : Text} (h : n ∈ t.nestedList)
      (hn : n.form = .inline opener closer) : Inlines t n.template
  | inside {t c : Template} {n : Nested} {opener closer : Text} (h : n ∈ t.nestedList)
      (hn : n.form = .inline opener closer) (hc : Inlines n.template c) : Inlines t c

theorem Template.Inlines.unnumbered {t c : Template} (h : t.Inlines c) :
    t.unnumbered.Inlines c.unnumbered := by
  have hmem : ∀ {t : Template} {n : Nested}, n ∈ t.nestedList →
      n.unnumbered ∈ t.unnumbered.nestedList := by
    intro t n hn
    rw [nestedList_unnumbered]
    exact List.mem_map_of_mem hn
  induction h with
  | @here t n _ _ h hn => exact .here (n := n.unnumbered) (hmem h) hn
  | @inside t c n _ _ h hn _ ih => exact .inside (n := n.unnumbered) (hmem h) hn ih

/-- **An inline template is the level of pieces that stand alone**, and their text is in the text of
the level around it. -/
theorem plainLevel_inlines {m : Markers} {names : LevelNames} {pieces : List Piece}
    {parts : List Part} {stamp : Stamp} {c : Template} (hs : Standalone m pieces)
    (h : plainLevel d load names pieces = .ok parts) (hc : (Template.mk stamp parts).Inlines c) :
    ∃ inner, Standalone m inner ∧ inner.flatMap Piece.raw <:+: pieces.flatMap Piece.raw ∧
      c.stamp = ⟨0, none⟩ ∧ plainLevel d load .empty inner = .ok c.parts := by
  -- The pieces between the two tags of a nested template that is inline.
  have hbetween : ∀ {names : LevelNames} {pieces : List Piece} {parts : List Part} {stamp : Stamp}
      {n : Nested} {opener closer : Text}, Standalone m pieces →
      plainLevel d load names pieces = .ok parts → n ∈ (Template.mk stamp parts).nestedList →
      n.form = .inline opener closer → ∃ inner, Standalone m inner ∧
        inner.flatMap Piece.raw <:+: pieces.flatMap Piece.raw ∧ n.template.stamp = ⟨0, none⟩ ∧
        plainLevel d load .empty inner = .ok n.template.parts := by
    intro names pieces parts stamp n opener closer hs h hn hform
    rcases plainLevel_nested names pieces h hn with
      ⟨path, raw, pos, hinc, -⟩ | ⟨before, t, inner, c, after, rfl, -, hstamp, hinner⟩
    · rw [hform] at hinc
      cases hinc
    · refine ⟨inner, hs.split.2.split.1, ?_, hstamp, hinner⟩
      refine ⟨before.flatMap Piece.raw ++ t.raw, c.raw ++ after.flatMap Piece.raw, ?_⟩
      simp [Piece.raw]
  generalize hT : Template.mk stamp parts = T at hc
  induction hc generalizing names pieces parts stamp with
  | here hn hform =>
    subst hT
    exact hbetween hs h hn hform
  | inside hn hform _ ih =>
    subst hT
    obtain ⟨inner, hs', hinfix, -, hinner⟩ := hbetween hs h hn hform
    obtain ⟨inner', hs'', hinfix', hrest⟩ := ih hs' hinner rfl
    exact ⟨inner', hs'', hinfix'.trans hinfix, hrest⟩

namespace Parser

variable {p : Parser} {stack : List SourceId} {n : Nat}

/-- The plain parser gives an inline template back from its source. -/
theorem plainText_inlines (hm : p.markers.Valid) {of : Option SourceId} {source : Text}
    {t c : Template} (hn : n ≤ p.depth)
    (h : p.plainWith (p.plainIncluded (p.plainId n stack) stack) of source = .ok t)
    (hditch : ∀ text cuts, Ditch.strip p.markers.ditch source = .ok (text, cuts) →
      ¬ p.markers.ditch <:+: text)
    (hc : t.Inlines c) : p.plainText c.source = .ok c := by
  obtain ⟨d, hd, h⟩ := bind_eq_ok h
  obtain ⟨parts, hparts, h⟩ := bind_eq_ok h
  cases h
  obtain ⟨inner, hs, hinfix, hstamp, hinner⟩ :=
    plainLevel_inlines (standalone_tokenize hm d.text) hparts hc
  have hsource : c.source = inner.flatMap Piece.raw := plainLevel_sources _ _ hinner
  have htext : ¬ p.markers.ditch <:+: d.text := by
    unfold Draft.ofSource at hd
    cases hstrip : Ditch.strip p.markers.ditch source with
    | error offset =>
      rw [hstrip] at hd
      cases hd
    | ok r =>
      rw [hstrip] at hd
      cases hd
      exact hditch _ _ hstrip
  rw [flatMap_raw_pieces hm, ← hsource] at hinfix
  have hwhole := Draft.ofSource_whole (fun hin => htext (hin.trans hinfix)) none 0
  have hload : ∀ path pos pos' t, p.plainIncluded (p.plainId n stack) stack d path pos = .ok t →
      p.plainIncluded (p.plainId p.depth []) [] (.whole none c.source) path pos' = .ok t := by
    intro path pos pos' t ht
    obtain ⟨b, hl, hb⟩ := plainIncluded_ok ht
    rw [plainIncluded_some hl, if_neg List.not_mem_nil]
    exact plainId_restack hb hn fun _ _ => List.not_mem_nil
  have hpieces := hs.pieces_eq hm
  rw [← hsource] at hpieces
  unfold plainText plainWith
  rw [hwhole, ok_bind]
  show plainLevel _ _ .empty (tokenize p.markers c.source).pieces >>= _ = _
  rw [plainLevel_unplaced hload .empty inner hpieces hinner, ok_bind, ← hstamp]
  rfl

end Parser

/-! ## Without a cache -/

namespace Parsing

variable {p : Parser}

/-- Without a cache, a text is parsed as by the plain parser, on every bench. -/
theorem Yields.parseAs_uncached (hc : p.caching = false) (id : Option SourceId) (source : Text) :
    Yields (fun _ => True) Template.unnumbered (p.parseAs id source)
      (p.plainWith (p.plainIncluded (p.plainId p.depth []) []) id source) := by
  rw [Parser.parseAs_eq]
  exact .parseWith _ _ fun d path _ pos => .loadIncluded d pos fun b _ _ =>
    .loadId_uncached hc _ _ b

end Parsing

/-! ## The law -/

namespace Parser

variable {p : Parser}

/-- The source of the template, parsed alone, gives the template again. -/
def StandsAlone (p : Parser) (c : Template) : Prop :=
  ∀ b, ∃ c', ((p.parseText c.source).on b).1 = .ok c' ∧ c'.unnumbered = c.unnumbered

/-- If no ditch word is left in the text of the source, every inline template stands alone. -/
def InlineLaw (p : Parser) (source : Text) (t : Template) : Prop :=
  ∀ text cuts, Ditch.strip p.markers.ditch source = .ok (text, cuts) →
    ¬ p.markers.ditch <:+: text → ∀ c, t.Inlines c → p.StandsAlone c

/-- The law holds of a template that the plain parser gives. -/
theorem inlineLaw_of_plainWith (hm : p.markers.Valid) (hc : p.caching = false)
    {stack : List SourceId} {n : Nat} {of : Option SourceId} {source : Text} {t : Template}
    (hn : n ≤ p.depth)
    (h : p.plainWith (p.plainIncluded (p.plainId n stack) stack) of source = .ok t.unnumbered) :
    p.InlineLaw source t := by
  intro text cuts hstrip hditch c htc b
  have hplain : p.plainText c.unnumbered.source = .ok c.unnumbered := by
    refine plainText_inlines hm hn h (fun text' cuts' hstrip' => ?_) htc.unnumbered
    rw [hstrip, Except.ok.injEq, Prod.mk.injEq] at hstrip'
    rw [← hstrip'.1]
    exact hditch
  rw [Template.source_unnumbered] at hplain
  have hyields := (Parsing.Yields.parseAs_uncached hc none c.source b True.intro).1
  exact map_eq_ok (hyields.trans hplain)

/-- **Inline templates are parsed as if alone.** If a text parses, its inline templates stand alone;
and wherever in the template another one is included, the inline templates of that one stand alone
by its own source. -/
theorem parseAs_inline (hm : p.markers.Valid) (hc : p.caching = false) {id : Option SourceId}
    {source : Text} {b : Bench} {t : Template} (h : ((p.parseAs id source).on b).1 = .ok t) :
    p.InlineLaw source t ∧
      ∀ n path raw, t.Contains n → n.form = .included path raw →
        ∃ id text, p.locate path = .ok (some id) ∧ p.readText id = .ok text ∧
          p.InlineLaw text n.template := by
  have hplain := (Parsing.Yields.parseAs_uncached hc id source b True.intro).1
  rw [h] at hplain
  refine ⟨inlineLaw_of_plainWith hm hc (Nat.le_refl _) hplain.symm, ?_⟩
  intro n path raw hn hform
  have hfaithful : p.Faithful n.unnumbered :=
    plainWith_faithful (Nat.le_refl _)
      (fun b t hb k hk => plainId_faithful (Nat.le_refl _) hb hk) hplain.symm hn.unnumbered
  obtain ⟨id', hl, hid⟩ := hfaithful path raw hform
  obtain ⟨text, hr, hid⟩ := bind_eq_ok hid
  exact ⟨id', text, hl, hr, inlineLaw_of_plainWith hm hc (Nat.le_succ _) hid⟩

/-- An inline template with both tags in comments, next to the comments of what is inside. -/
def hiddenRow : Template :=
  ⟨⟨1, none⟩, [.nested ['r'] (.inline "<!--~%%begin:r%-->".toList "<!--~%%end:r%-->".toList)
    ⟨2, none⟩ [.var ['x'] .unspecified "<!--~%x%-->".toList]]⟩

theorem parseAs_inline_hiddenRow :
    Markers.standard.Valid ∧
      ((parseAs ⟨.standard, .none, false⟩ none
        "<!--~%%begin:r%--><!--~%x%--><!--~%%end:r%-->".toList).on (.ofCapacity 0)).1 =
          .ok hiddenRow ∧
      StandsAlone ⟨.standard, .none, false⟩
        ⟨⟨2, none⟩, [.var ['x'] .unspecified "<!--~%x%-->".toList]⟩ := by
  have hp : (tokenize .standard "<!--~%%begin:r%--><!--~%x%--><!--~%%end:r%-->".toList).pieces =
      [.token ⟨.opens ['r'], 4, "~%%begin:r%".toList, "<!--".toList, "-->".toList⟩,
        .token ⟨.var ['x'], 22, "~%x%".toList, "<!--".toList, "-->".toList⟩,
        .token ⟨.closes ['r'], 33, "~%%end:r%".toList, "<!--".toList, "-->".toList⟩] := by
    decide
  have hd : Draft.ofSource Markers.standard.ditch (Stamp.origin ⟨1, none⟩)
      "<!--~%%begin:r%--><!--~%x%--><!--~%%end:r%-->".toList = .ok ⟨Stamp.origin ⟨1, none⟩,
        "<!--~%%begin:r%--><!--~%x%--><!--~%%end:r%-->".toList,
        "<!--~%%begin:r%--><!--~%x%--><!--~%%end:r%-->".toList, []⟩ := rfl
  have h : ((parseAs ⟨.standard, .none, false⟩ none
      "<!--~%%begin:r%--><!--~%x%--><!--~%%end:r%-->".toList).on (.ofCapacity 0)).1 =
        .ok hiddenRow := by
    unfold parseAs parseText
    rw [on_parseWith_ok _ hd]
    dsimp only
    rw [hp]
    simp [level_token, LevelNames.judge, splitEnd, readVariable, Text.splitOnce, level_nil,
      LevelNames.uses, LevelNames.empty, hiddenRow, Token.raw]
    rfl
  refine ⟨Markers.valid_standard, h, ?_⟩
  exact (parseAs_inline Markers.valid_standard rfl h).1 _ [] rfl (by decide) _
    (.here (n := ⟨['r'], _, ⟨⟨2, none⟩, _⟩⟩) List.mem_cons_self rfl)

end Parser

end Stencil
