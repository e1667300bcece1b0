import Stencil.Proofs.Markup.Hiding
import Stencil.Proofs.Parsing.Nesting
import Stencil.Proofs.Parsing.Relabel
import Stencil.Proofs.Parsing.Sources
import Stencil.Proofs.Session.Untagged

/-!
# A token parses in a comment as it does without

**Alike** (`Parsing.Alike`). Two parses are alike if on every bench they leave the same bench and
answer the same in some view, or fail with errors that differ in their positions only.

**Levels** (`Alike.level`). Levels whose texts and kinds of tokens are the same are alike, in the
view that leaves out the text of tags, if their includes are.

**The law** (`Parser.parseAs_hide`). Putting a token into a comment changes neither texts nor kinds,
so the template is the same but for the text of its tags, and renders the same.
-/

namespace Stencil

/-- The token with nothing but its kind. -/
def Token.bare (t : Token) : Token := ⟨t.kind, 0, [], [], []⟩

/-- The error, wherever it is. -/
def LoadError.unplaced : LoadError → LoadError
  | .parse e => .parse { e with position := ⟨0, 0⟩ }
  | .resolve e => .resolve e
  | .endless => .endless

/-! ## Answers alike -/

/-- The answers are the same in a view, or errors that differ in their positions only. -/
inductive AnswersAlike {α γ : Type} (view : α → γ) : Except LoadError α → Except LoadError α → Prop
  | ok {a a' : α} (h : view a' = view a) : AnswersAlike view (.ok a) (.ok a')
  | error {e e' : LoadError} (h : e'.unplaced = e.unplaced) :
    AnswersAlike view (.error e) (.error e')

namespace Parsing

variable {α β γ δ : Type} {view : α → γ} {look : β → δ}

/-- On every bench, the steps leave the same bench and answer alike. -/
def Alike (view : α → γ) (x y : Parsing α) : Prop :=
  ∀ b, (y.on b).2 = (x.on b).2 ∧ AnswersAlike view (x.on b).1 (y.on b).1

namespace Alike

theorem refl (view : α → γ) (x : Parsing α) : Alike view x x := by
  intro b
  refine ⟨rfl, ?_⟩
  cases (x.on b).1 with
  | ok a => exact .ok rfl
  | error e => exact .error rfl

theorem pure {a a' : α} (h : view a' = view a) : Alike view (Pure.pure a) (Pure.pure a') :=
  fun _ => ⟨rfl, .ok h⟩

theorem throw {e e' : LoadError} (h : e'.unplaced = e.unplaced) :
    Alike view (MonadExcept.throw e) (MonadExcept.throw e') :=
  fun _ => ⟨rfl, .error h⟩

theorem bind {x y : Parsing α} {k l : α → Parsing β} (h : Alike view x y)
    (hk : ∀ a a', view a' = view a → Alike look (k a) (l a')) : Alike look (x >>= k) (y >>= l) := by
  intro b
  obtain ⟨hbench, hanswers⟩ := h b
  rw [on_bind, on_bind]
  cases hx : x.on b with
  | mk r c =>
    cases hy : y.on b with
    | mk r' c' =>
      rw [hx, hy] at hbench hanswers
      dsimp only at hbench hanswers
      subst hbench
      cases hanswers with
      | ok ha => exact hk _ _ ha c'
      | error he => exact ⟨rfl, .error he⟩

/-- Steps that begin alike in full. -/
theorem same_bind (x : Parsing α) {k l : α → Parsing β} (hk : ∀ a, Alike look (k a) (l a)) :
    Alike look (x >>= k) (x >>= l) :=
  (refl id x).bind fun a a' h => by
    obtain rfl : a' = a := h
    exact hk a'

/-- **Levels of the same texts and kinds are alike**, if their includes are. -/
theorem level {d d' : Draft} {load other : Text → Nat → Parsing Template}
    (horigin : d'.origin = d.origin)
    (hload : ∀ path pos pos', Alike Template.untagged (load path pos) (other path pos'))
    (names : LevelNames) (pieces : List Piece) {pieces' : List Piece}
    (hp : pieces'.map (Piece.relabel Token.bare) = pieces.map (Piece.relabel Token.bare)) :
    Alike Part.allUntagged (level d load names pieces) (Stencil.level d' other names pieces') := by
  have hkind : ∀ t : Token, t.bare.kind = t.kind := fun _ => rfl
  induction names, pieces using level_induction generalizing pieces' with
  | nil names =>
    rw [List.map_eq_nil_iff.1 hp, level_nil, level_nil]
    exact .pure rfl
  | text names content rest ih =>
    obtain ⟨rest', rfl, hrest⟩ := Piece.map_relabel_text hp
    rw [level_text, level_text]
    exact (ih hrest).bind fun tail tail' ht => .pure (congrArg (Part.text content :: ·) ht)
  | fault names t rest f hj =>
    obtain ⟨t', rest', rfl, ht', hrest⟩ := Piece.map_relabel_token hp
    have hj' : names.judge t' rest' = .fault f :=
      Verdict.relabel_eq_fault ((LevelNames.judge_congr hkind ht' hrest).trans (congrArg _ hj))
    rw [level_token, level_token, hj, hj']
    refine .throw ?_
    show LoadError.parse ⟨f, d'.origin, _⟩ = LoadError.parse ⟨f, d.origin, _⟩
    rw [horigin]
  | var names t rest kind name hj ih =>
    obtain ⟨t', rest', rfl, ht', hrest⟩ := Piece.map_relabel_token hp
    have hj' : names.judge t' rest' = .var kind name :=
      Verdict.relabel_eq_var ((LevelNames.judge_congr hkind ht' hrest).trans (congrArg _ hj))
    rw [level_token, level_token, hj, hj']
    exact (ih hrest).bind fun tail tail' ht => .pure (congrArg (Part.var name kind [] :: ·) ht)
  | opens names t rest name inner c after hj ih₁ ih₂ =>
    obtain ⟨t', rest', rfl, ht', hrest⟩ := Piece.map_relabel_token hp
    obtain ⟨inner', c', after', hj', hinner, -, hafter⟩ :=
      Verdict.relabel_eq_opens ((LevelNames.judge_congr hkind ht' hrest).trans (congrArg _ hj))
    rw [level_token, level_token, hj, hj']
    refine (ih₁ hinner).bind fun body body' hbody => ?_
    refine same_bind (freshStamp none) fun stamp => ?_
    refine (ih₂ hafter).bind fun tail tail' ht => .pure ?_
    show Part.nested name (.inline [] []) stamp (Part.allUntagged body') :: Part.allUntagged tail' =
      Part.nested name (.inline [] []) stamp (Part.allUntagged body) :: Part.allUntagged tail
    rw [hbody, ht]
  | includes names t rest name path hj ih =>
    obtain ⟨t', rest', rfl, ht', hrest⟩ := Piece.map_relabel_token hp
    have hj' : names.judge t' rest' = .includes name path :=
      Verdict.relabel_eq_includes ((LevelNames.judge_congr hkind ht' hrest).trans (congrArg _ hj))
    rw [level_token, level_token, hj, hj']
    refine (hload path t.pos t'.pos).bind fun template template' htemplate => ?_
    refine (ih hrest).bind fun tail tail' ht => .pure ?_
    obtain ⟨hstamp, hparts⟩ := Template.mk.inj htemplate
    show Part.nested name (.included path []) template'.stamp (Part.allUntagged template'.parts) ::
        Part.allUntagged tail' =
      Part.nested name (.included path []) template.stamp (Part.allUntagged template.parts) ::
        Part.allUntagged tail
    rw [hstamp, hparts, ht]

/-- An include leads to the same from drafts of one origin. -/
theorem loadIncluded {p : Parser} {d d' : Draft} (horigin : d'.origin = d.origin)
    (load : SourceId → Parsing Template) (stack : List SourceId) (path : Text) (pos pos' : Nat) :
    Alike Template.untagged (p.loadIncluded load stack d path pos)
      (p.loadIncluded load stack d' path pos') := by
  have herror : ∀ f, (d'.error f pos').unplaced = (d.error f pos).unplaced := by
    intro f
    show LoadError.parse ⟨f, d'.origin, _⟩ = LoadError.parse ⟨f, d.origin, _⟩
    rw [horigin]
  unfold Parser.loadIncluded
  refine same_bind _ fun id? => ?_
  cases id? with
  | none => exact .throw (herror _)
  | some id =>
    dsimp only
    split
    · exact .throw (herror _)
    · exact refl _ _

end Alike

end Parsing

/-! ## The law -/

namespace Parser

variable {p : Parser} {source w₁ w₂ : Text} {t : Token}

/-- The texts and the kinds of tokens are the same when a token is put into a comment. -/
theorem kinds_hide (ht : .token t ∈ (tokenize .standard source).pieces) (hraw : t.raw = t.body)
    (hw₁ : ∀ c ∈ w₁, Text.isBlank c = true) (hw₂ : ∀ c ∈ w₂, Text.isBlank c = true) :
    (tokenize .standard (hide source t w₁ w₂)).pieces.map (Piece.relabel Token.bare) =
      (tokenize .standard source).pieces.map (Piece.relabel Token.bare) := by
  have hplace : Piece.relabel Token.bare ∘ Piece.unplaced = Piece.relabel Token.bare := by
    funext q
    cases q <;> rfl
  obtain ⟨before, after, hpieces, hhidden⟩ := tokenize_hide ht hraw hw₁ hw₂
  have hkinds := congrArg (List.map (Piece.relabel Token.bare)) hhidden
  rw [List.map_map, List.map_map, hplace] at hkinds
  rw [hkinds, hpieces, List.map_append, List.map_append]
  rfl

/-- Parsing with a token in a comment and without is alike. -/
theorem alike_hide (hm : p.markers = .standard) (hditch : ¬ Markers.standard.ditch <:+: source)
    (ht : .token t ∈ (tokenize .standard source).pieces) (hraw : t.raw = t.body)
    (hw₁ : ∀ c ∈ w₁, Text.isBlank c = true) (hw₂ : ∀ c ∈ w₂, Text.isBlank c = true)
    (id : Option SourceId) :
    Parsing.Alike Template.untagged (p.parseAs id source)
      (p.parseAs id (hide source t w₁ w₂)) := by
  have hditch' : ¬ p.markers.ditch <:+: hide source t w₁ w₂ := by
    rw [hm]
    exact not_ditch_hide hditch ht hraw hw₁ hw₂
  rw [← hm] at hditch
  intro b
  rw [parseAs_eq, parseAs_eq, parseWith_whole hditch, parseWith_whole hditch', hm]
  have horigin : (Draft.whole id (hide source t w₁ w₂)).origin = (Draft.whole id source).origin :=
    rfl
  have hload : ∀ path pos pos', Parsing.Alike Template.untagged
      (p.loadFromTop (.whole id source) path pos)
      (p.loadFromTop (.whole id (hide source t w₁ w₂)) path pos') :=
    fun path pos pos' => .loadIncluded horigin _ _ path pos pos'
  have hlevel := Parsing.Alike.level horigin hload .empty _ (kinds_hide ht hraw hw₁ hw₂)
  have htemplate : ∀ parts parts' : List Part,
      Part.allUntagged parts' = Part.allUntagged parts →
        Template.untagged ⟨⟨b.2, id⟩, parts'⟩ = Template.untagged ⟨⟨b.2, id⟩, parts⟩ :=
    fun _ _ h => congrArg (Template.mk ⟨b.2, id⟩) h
  exact hlevel.bind (fun parts parts' h => .pure (htemplate parts parts' h)) (b.1, b.2 + 1)

/-- **A token is processed in a comment as without.** If a token that hides in no comment is put
into one, in a text without ditch words, the parse leaves the same bench. Both texts fail with the
same error, up to its position; or both succeed with templates that are the same up to the text of
their tags, and render the same after any operations. -/
theorem parseAs_hide (hm : p.markers = .standard) (hditch : ¬ Markers.standard.ditch <:+: source)
    (ht : .token t ∈ (tokenize .standard source).pieces) (hraw : t.raw = t.body)
    (hw₁ : ∀ c ∈ w₁, Text.isBlank c = true) (hw₂ : ∀ c ∈ w₂, Text.isBlank c = true)
    (id : Option SourceId) (b : Bench) :
    ((p.parseAs id (hide source t w₁ w₂)).on b).2 = ((p.parseAs id source).on b).2 ∧
      ((∃ e e', ((p.parseAs id source).on b).1 = .error e ∧
          ((p.parseAs id (hide source t w₁ w₂)).on b).1 = .error e' ∧ e'.unplaced = e.unplaced) ∨
        ∃ T T', ((p.parseAs id source).on b).1 = .ok T ∧
          ((p.parseAs id (hide source t w₁ w₂)).on b).1 = .ok T' ∧ T'.untagged = T.untagged ∧
          ∀ (escaper : Escaper) (kind : EscapeKind) (ops : List Operation),
            (ops.foldl Session.perform ⟨.new T', escaper, kind⟩).render =
              (ops.foldl Session.perform ⟨.new T, escaper, kind⟩).render) := by
  obtain ⟨hbench, hanswers⟩ := alike_hide hm hditch ht hraw hw₁ hw₂ id b
  refine ⟨hbench, ?_⟩
  generalize ((p.parseAs id source).on b).1 = r at hanswers ⊢
  generalize ((p.parseAs id (hide source t w₁ w₂)).on b).1 = r' at hanswers ⊢
  cases hanswers with
  | @error e e' he => exact .inl ⟨e, e', rfl, rfl, he⟩
  | @ok T T' hT =>
    refine .inr ⟨T, T', rfl, rfl, hT, fun escaper kind ops => ?_⟩
    rw [← Session.render_run_untagged T', hT, Session.render_run_untagged]

/-- Tokens next to each other, one of which hides, with half a comment in front of them and half a
comment between them. -/
def halfHidden : Text := "<!--~%%begin:r%~%x%--><!--~%%end:r%-->".toList

/-- The variable takes the comment that is put around it, and not the half that stood behind it. -/
theorem parseAs_hide_halfHidden :
    ¬ Markers.standard.ditch <:+: halfHidden ∧
      .token ⟨.var ['x'], 15, "~%x%".toList, [], []⟩ ∈ (tokenize .standard halfHidden).pieces ∧
      ∃ T T', ((parseAs ⟨.standard, .none, false⟩ none halfHidden).on (.ofCapacity 0)).1 = .ok T ∧
        ((parseAs ⟨.standard, .none, false⟩ none
          "<!--~%%begin:r%<!-- ~%x%\n-->--><!--~%%end:r%-->".toList).on (.ofCapacity 0)).1 =
            .ok T' ∧ T'.untagged = T.untagged := by
  have hditch : ¬ Markers.standard.ditch <:+: halfHidden := by decide
  have hpieces : (tokenize .standard halfHidden).pieces = [.text "<!--".toList,
      .token ⟨.opens ['r'], 4, "~%%begin:r%".toList, [], []⟩,
      .token ⟨.var ['x'], 15, "~%x%".toList, [], []⟩, .text "-->".toList,
      .token ⟨.closes ['r'], 26, "~%%end:r%".toList, "<!--".toList, "-->".toList⟩] := by decide
  have ht : .token ⟨.var ['x'], 15, "~%x%".toList, [], []⟩ ∈
      (tokenize .standard halfHidden).pieces := by simp [hpieces]
  have hblank : ∀ c ∈ [' '], Text.isBlank c = true := List.forall_mem_singleton.2 rfl
  have hbreak : ∀ c ∈ ['\n'], Text.isBlank c = true := List.forall_mem_singleton.2 rfl
  have hparses : ∃ T, ((parseAs ⟨.standard, .none, false⟩ none halfHidden).on
      (.ofCapacity 0)).1 = .ok T := by
    rw [parseAs_eq, parseWith_whole hditch]
    dsimp only
    rw [hpieces]
    simp [level_token, LevelNames.judge, splitEnd, readVariable, Text.splitOnce, level_text,
      level_nil, LevelNames.uses, LevelNames.empty]
    exact ⟨_, rfl⟩
  obtain ⟨T, hT⟩ := hparses
  refine ⟨hditch, ht, ?_⟩
  obtain ⟨-, ⟨e, e', he, -⟩ | ⟨T, T', hT, hT', hsame, -⟩⟩ :=
    parseAs_hide (p := ⟨.standard, .none, false⟩) rfl hditch ht rfl hblank hbreak none
      (.ofCapacity 0)
  · rw [hT] at he
    cases he
  · exact ⟨T, T', hT, hT', hsame⟩

end Parser

end Stencil
