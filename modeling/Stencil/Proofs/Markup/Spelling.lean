import Stencil.Proofs.Markup.Standalone

/-!
# Spelling with the standard markers

**Starts** (`token?_standard_eq_none`). Every token begins with the variable opener, so a place
where that is not found is text. A text without a variable opener is quiet before everything that
does not begin with `%`.

**Spelled pieces** (`Spelled`). Texts in which neither a token nor a comment begins, and tokens that
are read as they are, whatever stands behind them. No two texts are next to each other.

**Main fact** (`Spelled.standalone`). Spelled pieces stand alone, so the text that they spell is cut
into them again.
-/

namespace Stencil

/-! ## Words -/

/-- A word without a character is found on one side of the character. -/
theorem infix_of_separated {w a b : Text} {c : Char} (hc : c ∉ w) (h : w <:+: a ++ c :: b) :
    w <:+: a ∨ w <:+: b := by
  obtain ⟨s, t, h⟩ := h
  rw [List.append_assoc] at h
  rcases List.append_eq_append_iff.1 h with ⟨m, rfl, hm⟩ | ⟨m, rfl, hm⟩
  · rcases List.append_eq_append_iff.1 hm with ⟨m', rfl, -⟩ | ⟨m', rfl, hm'⟩
    · exact .inl ⟨s, m', by simp⟩
    · cases m' with
      | nil => exact .inl ⟨s, [], by simp⟩
      | cons c' m' =>
        obtain ⟨rfl, -⟩ := List.cons.inj hm'
        exact absurd (List.mem_append_right _ List.mem_cons_self) hc
  · cases m with
    | nil =>
      cases w with
      | nil => exact .inl List.nil_infix
      | cons c' w =>
        obtain ⟨rfl, -⟩ := List.cons.inj hm
        exact absurd List.mem_cons_self hc
    | cons c' m =>
      obtain ⟨rfl, rfl⟩ := List.cons.inj hm
      exact .inr ⟨m, t, by simp⟩

/-- What has no closer in it and does not break the line is closed by the closer behind it. -/
theorem closedBy?_char {c : Char} {x : Text} (hc : c ∉ x) (hbreak : ∀ d ∈ x, Text.isBreak d = false)
    (v : Text) : closedBy? [c] (x ++ c :: v) = some x := by
  induction x with
  | nil => exact closedBy?_of_beginsWith (Text.beginsWith_iff.2 ⟨v, rfl⟩)
  | cons d x ih =>
    rw [List.mem_cons, not_or] at hc
    have hd : ¬ Text.beginsWith [c] (d :: (x ++ c :: v)) = true := by
      intro h
      obtain ⟨r, hr⟩ := Text.beginsWith_iff.1 h
      exact hc.1 (List.cons.inj hr).1.symm
    rw [List.cons_append, closedBy?, if_neg hd, hbreak d List.mem_cons_self,
      if_neg Bool.false_ne_true, ih hc.2 fun d hd => hbreak d (List.mem_cons_of_mem _ hd)]
    rfl

/-! ## Tokens with the standard markers -/

namespace Markers

/-- Every token begins like a variable. -/
theorem token?_standard_eq_none {t : Text} (h : ¬ ['~', '%'] <+: t) : standard.token? t = none := by
  have htag : Text.after? standard.tagStart t = none := by
    rw [Option.eq_none_iff_forall_ne_some]
    intro r hr
    exact h ⟨'%' :: r, (Text.after?_eq_some_iff.1 hr).symm⟩
  have hvar : Text.after? standard.varStart t = none := by
    rw [Option.eq_none_iff_forall_ne_some]
    intro r hr
    exact h ⟨r, (Text.after?_eq_some_iff.1 hr).symm⟩
  have hstray : standard.stray? t = none := by
    unfold stray? Text.beginsWith
    rw [htag]
    rfl
  unfold token? tag? var?
  rw [htag, hvar, hstray]
  rfl

/-- A text without a variable opener is quiet, unless one ends in what follows. -/
theorem quiet_standard {x next : Text} (hx : ¬ ['~', '%'] <:+: x)
    (hnext : ∀ r, next ≠ '%' :: r) : standard.Quiet x next := by
  induction x with
  | nil => trivial
  | cons c x ih =>
    refine ⟨token?_standard_eq_none fun h => ?_,
      ih fun h => hx (h.trans (List.suffix_cons c x).isInfix)⟩
    obtain ⟨r, hr⟩ := h
    obtain ⟨hc, hrest⟩ := List.cons.inj hr
    cases x with
    | nil => exact hnext r hrest.symm
    | cons d x =>
      obtain ⟨hd, -⟩ := List.cons.inj hrest
      exact hx ⟨[], x, by rw [← hc, ← hd]; rfl⟩

/-- A variable whose body does not begin like a tag is read up to the first closer. -/
theorem token?_standard_var {x : Text} (hne : x ≠ []) (hx : '%' ∉ x)
    (hbreak : ∀ d ∈ x, Text.isBreak d = false) (v : Text) :
    standard.token? ('~' :: '%' :: (x ++ '%' :: v)) =
      some (.var x, '~' :: '%' :: (x ++ ['%'])) := by
  have htag : Text.after? standard.tagStart ('~' :: '%' :: (x ++ '%' :: v)) = none := by
    rw [Option.eq_none_iff_forall_ne_some]
    intro r hr
    have hr := Text.after?_eq_some_iff.1 hr
    cases x with
    | nil => exact hne rfl
    | cons d x =>
      obtain ⟨-, hr⟩ := List.cons.inj hr
      obtain ⟨-, hr⟩ := List.cons.inj hr
      exact hx ((List.cons.inj hr).1 ▸ List.mem_cons_self)
  have hvar : standard.var? ('~' :: '%' :: (x ++ '%' :: v)) =
      some (.var x, '~' :: '%' :: (x ++ ['%'])) :=
    var?_eq_some_iff.2 ⟨x, x ++ '%' :: v, rfl, closedBy?_char hx hbreak v, rfl, rfl⟩
  have hstray : standard.stray? ('~' :: '%' :: (x ++ '%' :: v)) = none := by
    unfold stray? Text.beginsWith
    rw [htag]
    rfl
  unfold token? tag?
  rw [htag, hvar, hstray]
  rfl

/-- A tag is read up to the first closer. -/
theorem token?_standard_tag (keyword : Text) {x : Text} (hne : keyword ≠ [])
    (hword : ∀ c ∈ keyword, isKeyword c = true) (hx : '%' ∉ x)
    (hbreak : ∀ d ∈ x, Text.isBreak d = false) (v : Text) :
    standard.token? ('~' :: '%' :: '%' :: (keyword ++ ':' :: (x ++ '%' :: v))) =
      some (.ofTag keyword x, '~' :: '%' :: '%' :: (keyword ++ ':' :: (x ++ ['%']))) := by
  have htag : standard.tag? ('~' :: '%' :: '%' :: (keyword ++ ':' :: (x ++ '%' :: v))) =
      some (.ofTag keyword x, '~' :: '%' :: '%' :: (keyword ++ ':' :: (x ++ ['%']))) :=
    tag?_eq_some_iff.2 ⟨keyword, x, x ++ '%' :: v, hne, hword, rfl, closedBy?_char hx hbreak v,
      rfl, rfl⟩
  unfold token?
  rw [htag]
  rfl

end Markers

/-! ## Spelled pieces -/

/-- The pieces are texts in which no token and no comment begins, and tokens that are read as they
are and hide in no comment. -/
inductive Spelled : List Piece → Prop
  | nil : Spelled []
  | text {content : Text} {ps : List Piece} (nonempty : content ≠ [])
      (noOpener : ¬ ['~', '%'] <:+: content)
      (noComment : ¬ Markers.standard.commentStart <:+: content)
      (apart : ∀ other qs, ps ≠ .text other :: qs) (rest : Spelled ps) :
      Spelled (.text content :: ps)
  | token {kind : TokenKind} {inside : Text} {ps : List Piece}
      (reads : ∀ v, Markers.standard.token? ('~' :: (inside ++ '%' :: v)) =
        some (kind, '~' :: (inside ++ ['%'])))
      (noComment : ¬ Markers.standard.commentStart <:+: inside) (rest : Spelled ps) :
      Spelled (.token ⟨kind, 0, '~' :: (inside ++ ['%']), [], []⟩ :: ps)

namespace Spelled

variable {ps : List Piece}

/-- No comment begins in what is spelled. -/
theorem noComment (h : Spelled ps) :
    ¬ Markers.standard.commentStart <:+: ps.flatMap Piece.raw := by
  -- The signs at both ends of a token keep it apart from what stands beside it.
  have hopen : '~' ∉ Markers.standard.commentStart := by decide
  have hclose : '%' ∉ Markers.standard.commentStart := by decide
  have htoken : ∀ {content inside rest : Text}, ¬ Markers.standard.commentStart <:+: content →
      ¬ Markers.standard.commentStart <:+: inside → ¬ Markers.standard.commentStart <:+: rest →
        ¬ Markers.standard.commentStart <:+: content ++ '~' :: (inside ++ '%' :: rest) := by
    intro content inside rest hcontent hinside hrest h
    rcases infix_of_separated hopen h with h | h
    · exact hcontent h
    · exact (infix_of_separated hclose h).elim hinside hrest
  have hempty : ¬ Markers.standard.commentStart <:+: [] := by decide
  induction h with
  | nil => exact hempty
  | @text content ps _ _ hcontent apart rest ih =>
    cases rest with
    | nil => simpa [Piece.raw] using hcontent
    | text => exact absurd rfl (apart _ _)
    | @token kind inside ps _ hinside rest =>
      have hps : ¬ Markers.standard.commentStart <:+: ps.flatMap Piece.raw := fun h =>
        ih (h.trans (List.suffix_append ..).isInfix)
      simpa [Piece.raw, Token.raw] using htoken hcontent hinside hps
  | token _ hinside _ ih => simpa [Piece.raw, Token.raw] using htoken hempty hinside ih

/-- A token before which no comment begins hides in none. -/
theorem wrapper?_eq_none {before after : Text}
    (h : ¬ Markers.standard.commentStart <:+: before) :
    Markers.standard.wrapper? before after = none := by
  have hnone : Text.upTo? Markers.standard.commentStart (Text.trimEnd before) = none := by
    rw [Option.eq_none_iff_forall_ne_some]
    intro kept hkept
    obtain ⟨w, hw, -⟩ := Text.trimEnd_append_blanks before
    rw [Text.upTo?_eq_some_iff.1 hkept] at hw
    exact h ⟨kept, w, hw.symm⟩
  unfold Markers.wrapper?
  rw [hnone]
  rfl

/-- **Spelled pieces stand alone.** -/
theorem standalone (h : Spelled ps) : Standalone .standard ps := by
  have hscan : ∃ head tail, ps = Scan.pieces ⟨head, tail⟩ ∧ Scanned .standard [] head tail ∧
      Claimed .standard [] head tail ∧ (∀ e ∈ tail, e.1.lead = [] ∧ e.1.trail = []) ∧
      (∀ r, tailText tail ≠ '%' :: r) ∧ ((∀ other qs, ps ≠ .text other :: qs) → head = []) := by
    induction h with
    | nil =>
      exact ⟨[], [], rfl, trivial, trivial, fun e he => (nomatch he), fun r hr => (nomatch hr),
        fun _ => rfl⟩
    | @text content ps nonempty noOpener noComment apart rest ih =>
      obtain ⟨head, tail, rfl, hs, hc, hbare, htail, hhead⟩ := ih
      cases hhead apart
      refine ⟨content, tail, ?_, ?_, ?_, hbare, htail, fun h => absurd rfl (h _ _)⟩
      · simp [Scan.pieces, Piece.ofText, nonempty]
      · rw [← List.append_nil content, Scanned.head_append_iff]
        exact ⟨Markers.quiet_standard noOpener (by simpa using htail), hs⟩
      · cases tail with
        | nil => trivial
        | cons e tail =>
          obtain ⟨hlead, htrail⟩ := hbare e List.mem_cons_self
          refine ⟨.inr ⟨wrapper?_eq_none ?_, hlead, htrail⟩, hc.2⟩
          rwa [hlead, List.append_nil]
    | @token kind inside ps reads noComment rest ih =>
      obtain ⟨head, tail, rfl, hs, hc, hbare, htail, -⟩ := ih
      refine ⟨[], (⟨kind, 0, '~' :: (inside ++ ['%']), [], []⟩, head) :: tail, ?_, ?_, ?_, ?_, ?_,
        fun _ => rfl⟩
      · rw [Scan.pieces_cons]
        rfl
      · refine ⟨trivial, ?_, trivial, hs⟩
        have hreads := reads (head ++ tailText tail ++ [])
        simpa using hreads
      · have hempty : ¬ Markers.standard.commentStart <:+: [] := by decide
        exact ⟨.inr ⟨wrapper?_eq_none hempty, rfl, rfl⟩, hc⟩
      · intro e he
        rcases List.mem_cons.1 he with rfl | he
        · exact ⟨rfl, rfl⟩
        · exact hbare e he
      · intro r hr
        rw [tailText_cons] at hr
        cases hr
  obtain ⟨head, tail, hps, hs, hc, -⟩ := hscan
  exact ⟨[], [], head, tail, hps, hs, hc⟩

end Spelled

end Stencil
