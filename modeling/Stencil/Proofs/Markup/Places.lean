import Stencil.Proofs.Markup.Standalone

/-!
# Where tokens stand

**Places** (`Placed`). A token stands where the texts and tokens before it end, behind the start of
the comment that it hides in. Scanning puts it there, and claiming comments moves no token.

**Tokens of a text** (`tokenize_split`). A text is divided by each of its tokens: into what is in
front of the token, the token itself, and what is behind it.

**Openers** (`tokenize_token`). A token itself begins with the opener of its kind.
-/

namespace Stencil

/-! ## Places -/

/-- The tokens stand where the texts and tokens before them end, if the first text stands at `pos`.
-/
def Placed : Nat → Text → List (Token × Text) → Prop
  | _, _, [] => True
  | pos, head, (t, after) :: rest =>
    t.pos = pos + head.length + t.lead.length ∧ Placed t.stop after rest

namespace Placed

variable {m : Markers} {pos : Nat} {head after : Text} {t : Token} {tail : List (Token × Text)}

theorem head_append_iff {x : Text} :
    Placed pos (x ++ head) tail ↔ Placed (pos + x.length) head tail := by
  cases tail with
  | nil => exact Iff.rfl
  | cons e rest => simp only [Placed, List.length_append, Nat.add_assoc]

/-- Tokens are scanned where they stand. -/
theorem of_scanFrom (hm : m.Valid) (pos skip : Nat) (t : Text) :
    Placed (pos + skip) (scanFrom m pos skip t).head (scanFrom m pos skip t).tail := by
  induction t generalizing pos skip with
  | nil =>
    rw [scanFrom]
    trivial
  | cons c cs ih =>
    cases skip with
    | succ skip =>
      rw [scanFrom, Nat.add_comm skip, ← Nat.add_assoc]
      exact ih (pos + 1) skip
    | zero =>
      rw [scanFrom]
      cases ht : m.token? (c :: cs) with
      | none => exact (head_append_iff (x := [c])).2 (ih (pos + 1) 0)
      | some r =>
        obtain ⟨kind, body⟩ := r
        have hlen : 0 < body.length := List.length_pos_iff.2 (hm.token?_ne_nil ht)
        have hstop : pos + 1 + (body.length - 1) = pos + body.length := by omega
        refine ⟨rfl, ?_⟩
        show Placed (pos + body.length) _ _
        rw [← hstop]
        exact ih (pos + 1) (body.length - 1)

/-- Claiming comments moves no token. -/
theorem claimed (hbare : ∀ e ∈ tail, e.1.lead = [] ∧ e.1.trail = []) (h : Placed pos head tail) :
    Placed pos (claim m head tail).head (claim m head tail).tail := by
  induction tail generalizing pos head with
  | nil => trivial
  | cons e rest ih =>
    obtain ⟨t, after⟩ := e
    have hrest : ∀ e ∈ rest, e.1.lead = [] ∧ e.1.trail = [] :=
      fun e he => hbare e (List.mem_cons_of_mem _ he)
    obtain ⟨hlead, htrail⟩ := hbare (t, after) List.mem_cons_self
    dsimp only at hlead htrail
    obtain ⟨hpos, hafter⟩ := h
    rw [hlead] at hpos
    rw [Token.stop, htrail] at hafter
    rw [claim]
    cases hw : m.wrapper? head after with
    | none =>
      refine ⟨?_, ?_⟩
      · rw [hlead]
        exact hpos
      · rw [Token.stop, htrail]
        exact ih hrest hafter
    | some w =>
      obtain ⟨rfl, rfl⟩ := Markers.wrapper?_eq_some hw
      refine ⟨?_, ih hrest (head_append_iff.1 hafter)⟩
      rw [hpos, List.length_append, ← Nat.add_assoc]
      rfl

/-- Where a token stands. -/
theorem pos_eq {earlier later : List (Token × Text)}
    (h : Placed pos head (earlier ++ (t, after) :: later)) :
    t.pos = pos + (head ++ tailText earlier ++ t.lead).length := by
  induction earlier generalizing pos head with
  | nil =>
    rw [h.1]
    simp [tailText, Nat.add_assoc]
  | cons e earlier ih =>
    obtain ⟨e, text⟩ := e
    rw [ih h.2, Token.stop, h.1, tailText_cons]
    simp only [List.length_append]
    omega

end Placed

/-! ## Tokens of a text -/

/-- The pieces on both sides of a token. -/
theorem Scan.pieces_append_cons (head after : Text) (t : Token)
    (earlier later : List (Token × Text)) :
    Scan.pieces ⟨head, earlier ++ (t, after) :: later⟩ =
      Scan.pieces ⟨head, earlier⟩ ++ .token t :: Scan.pieces ⟨after, later⟩ := by
  simp [Scan.pieces]

/-- A token of a text is read at its place. -/
theorem Scanned.reads {m : Markers} {next head after : Text} {t : Token}
    {earlier later : List (Token × Text)}
    (h : Scanned m next head (earlier ++ (t, after) :: later)) :
    m.token? (t.body ++ (t.trail ++ (after ++ tailText later ++ next))) =
      some (t.kind, t.body) := by
  induction earlier generalizing head with
  | nil => exact h.2.1
  | cons e earlier ih => exact ih h.2.2.2

variable {m : Markers} {source : Text} {t : Token} {before after : List Piece}

/-- What holds of a scan and of claims, and where tokens stand, for the tokens of a text. -/
theorem tokenize_settled (hm : m.Valid) (source : Text) :
    source = (tokenize m source).head ++ tailText (tokenize m source).tail ∧
      Scanned m [] (tokenize m source).head (tokenize m source).tail ∧
      Claimed m [] (tokenize m source).head (tokenize m source).tail ∧
      Placed 0 (tokenize m source).head (tokenize m source).tail := by
  have hbare := scanFrom_bare m 0 0 source
  have hsettled := claim_settles hbare (scanned_scanFrom hm 0 0 source)
  exact ⟨(tokenize_text hm source).symm, hsettled.1, hsettled.2.1,
    (Placed.of_scanFrom hm 0 0 source).claimed hbare⟩

/-- **A text is divided by each of its tokens.** -/
theorem tokenize_split (hm : m.Valid)
    (h : (tokenize m source).pieces = before ++ .token t :: after) :
    ∃ head earlier text later, before = Scan.pieces ⟨head, earlier⟩ ∧
      after = Scan.pieces ⟨text, later⟩ ∧
      source = head ++ tailText (earlier ++ (t, text) :: later) ∧
      Scanned m [] head (earlier ++ (t, text) :: later) ∧
      Claimed m [] head (earlier ++ (t, text) :: later) ∧
      Placed 0 head (earlier ++ (t, text) :: later) := by
  obtain ⟨htext, hs, hc, hp⟩ := tokenize_settled hm source
  generalize tokenize m source = s at h htext hs hc hp
  obtain ⟨head, tail⟩ := s
  obtain ⟨earlier, text, later, rfl, rfl, rfl⟩ := Scan.pieces_split h
  exact ⟨head, earlier, text, later, rfl, rfl, htext, hs, hc, hp⟩

/-! ## Openers -/

/-- What a token of a kind begins with. -/
def Markers.opener (m : Markers) : TokenKind → Text
  | .var _ => m.varStart
  | _ => m.tagStart

theorem Markers.opener_ofTag (m : Markers) (keyword arg : Text) :
    m.opener (.ofTag keyword arg) = m.tagStart := by
  unfold TokenKind.ofTag
  split
  · rfl
  · split
    · rfl
    · split <;> rfl

theorem Markers.Valid.opener_ne_nil (hm : m.Valid) (kind : TokenKind) : m.opener kind ≠ [] := by
  cases kind with
  | var => exact hm.get_ne_nil .varStart
  | opens | closes | includes | unknown | stray => exact hm.get_ne_nil .tagStart

theorem Markers.token?_opener {text body : Text} {kind : TokenKind}
    (h : m.token? text = some (kind, body)) : m.opener kind <+: body := by
  rcases token?_cases h with h | h | h
  · obtain ⟨keyword, arg, r, -, -, -, -, rfl, rfl⟩ := tag?_eq_some_iff.1 h
    rw [opener_ofTag]
    exact List.prefix_append _ _
  · obtain ⟨name, r, -, -, rfl, rfl⟩ := var?_eq_some_iff.1 h
    exact List.prefix_append _ _
  · obtain ⟨-, rfl, rfl⟩ := stray?_eq_some_iff.1 h
    exact List.prefix_rfl

/-- **A token of a text stands behind what is in front of it and the start of its comment**, and
begins with the opener of its kind. -/
theorem tokenize_token (hm : m.Valid)
    (h : (tokenize m source).pieces = before ++ .token t :: after) :
    t.pos = (before.flatMap Piece.raw ++ t.lead).length ∧
      before.flatMap Piece.raw ++ t.lead ++ t.body <+: source ∧ m.opener t.kind <+: t.body := by
  obtain ⟨head, earlier, text, later, rfl, -, rfl, hs, -, hp⟩ := tokenize_split hm h
  have hbefore : (Scan.pieces ⟨head, earlier⟩).flatMap Piece.raw = head ++ tailText earlier :=
    Scan.pieces_raw _
  rw [hbefore]
  refine ⟨by rw [hp.pos_eq, Nat.zero_add], ?_, Markers.token?_opener hs.reads⟩
  rw [tailText_append, tailText_cons]
  simp

end Stencil
