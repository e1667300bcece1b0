import Stencil.Proofs.Parsing.Run

/-!
# Tokens of one kind

What a token comes to on a level depends on kinds only, on its own and on those of the tokens behind
it. So a change of tokens that keeps their kinds (`Piece.relabel`) can be made before the verdict or
after it (`LevelNames.judge_relabel`).
-/

namespace Stencil

/-- The piece, with a change made to it if it is a token. -/
def Piece.relabel (f : Token → Token) : Piece → Piece
  | .text content => .text content
  | .token t => .token (f t)

/-- The verdict, with a change made to its tokens. -/
def Verdict.relabel (f : Token → Token) : Verdict → Verdict
  | .fault f => .fault f
  | .var kind name => .var kind name
  | .opens name inner c after =>
    .opens name (inner.map (Piece.relabel f)) (f c) (after.map (Piece.relabel f))
  | .includes name path => .includes name path

variable {f : Token → Token}

/-! ## Pieces -/

/-- Pieces that are a text and others but for the change. -/
theorem Piece.map_relabel_text {content : Text} {rest pieces' : List Piece}
    (h : pieces'.map (relabel f) = (Piece.text content :: rest).map (relabel f)) :
    ∃ rest', pieces' = .text content :: rest' ∧
      rest'.map (relabel f) = rest.map (relabel f) := by
  obtain ⟨p, rest', rfl, hp, hrest⟩ := List.map_eq_cons_iff.1 h
  cases p with
  | text content' =>
    cases hp
    exact ⟨rest', rfl, hrest⟩
  | token t' => cases hp

/-- Pieces that are a token and others but for the change. -/
theorem Piece.map_relabel_token {t : Token} {rest pieces' : List Piece}
    (h : pieces'.map (relabel f) = (Piece.token t :: rest).map (relabel f)) :
    ∃ t' rest', pieces' = .token t' :: rest' ∧ f t' = f t ∧
      rest'.map (relabel f) = rest.map (relabel f) := by
  obtain ⟨p, rest', rfl, hp, hrest⟩ := List.map_eq_cons_iff.1 h
  cases p with
  | text content' => cases hp
  | token t' => exact ⟨t', rest', rfl, Piece.token.inj hp, hrest⟩

theorem splitEnd_relabel (hf : ∀ t, (f t).kind = t.kind) (name : Text) (ps : List Piece) :
    splitEnd name (ps.map (Piece.relabel f)) =
      (splitEnd name ps).map fun (inner, c, after) =>
        (inner.map (Piece.relabel f), f c, after.map (Piece.relabel f)) := by
  induction ps with
  | nil => rfl
  | cons p ps ih =>
    cases p with
    | text content =>
      rw [List.map_cons, Piece.relabel, splitEnd, ih, splitEnd, Option.map_map, Option.map_map]
      rfl
    | token t =>
      rw [List.map_cons, Piece.relabel, splitEnd, hf, ih, splitEnd]
      by_cases hk : t.kind = .closes name
      · rw [if_pos hk, if_pos hk]
        rfl
      · rw [if_neg hk, if_neg hk, Option.map_map, Option.map_map]
        rfl

/-! ## Verdicts -/

/-- The verdict, with changes made to its closing tag and to the pieces inside and after. -/
def Verdict.map (f : Token → Token) (g : List Piece → List Piece) : Verdict → Verdict
  | .fault x => .fault x
  | .var kind name => .var kind name
  | .opens name inner c after => .opens name (g inner) (f c) (g after)
  | .includes name path => .includes name path

/-- A change that keeps kinds and goes along with splitting at an end tag can be made before the
verdict or after it. -/
theorem LevelNames.judge_map {g : List Piece → List Piece} (hf : ∀ t, (f t).kind = t.kind)
    (hg : ∀ name ps, splitEnd name (g ps) =
      (splitEnd name ps).map fun (inner, c, after) => (g inner, f c, g after))
    (names : LevelNames) (t : Token) (rest : List Piece) :
    names.judge (f t) (g rest) = (names.judge t rest).map f g := by
  unfold judge
  rw [hf]
  cases t.kind with
  | var body =>
    dsimp only
    split
    · rfl
    · split
      · rfl
      · split <;> rfl
  | opens name =>
    dsimp only
    rw [hg]
    split
    · rfl
    · cases splitEnd name rest with
      | none => rfl
      | some r =>
        obtain ⟨inner, c, after⟩ := r
        dsimp only [Option.map_some]
        split <;> rfl
  | includes arg =>
    dsimp only
    split
    · rfl
    · split
      · rfl
      · split <;> rfl
  | closes | unknown | stray => rfl

/-- **The verdict on a token depends on kinds only.** -/
theorem LevelNames.judge_relabel (hf : ∀ t, (f t).kind = t.kind) (names : LevelNames) (t : Token)
    (rest : List Piece) :
    names.judge (f t) (rest.map (Piece.relabel f)) = (names.judge t rest).relabel f := by
  rw [judge_map hf (splitEnd_relabel hf)]
  cases names.judge t rest <;> rfl

/-- Tokens that the change makes equal come to the same, before pieces that it makes equal. -/
theorem LevelNames.judge_congr (hf : ∀ t, (f t).kind = t.kind) {names : LevelNames} {t t' : Token}
    {rest rest' : List Piece} (ht : f t' = f t)
    (hrest : rest'.map (Piece.relabel f) = rest.map (Piece.relabel f)) :
    (names.judge t' rest').relabel f = (names.judge t rest).relabel f := by
  rw [← judge_relabel hf, ← judge_relabel hf, ht, hrest]

namespace Verdict

variable {v : Verdict}

theorem relabel_eq_fault {fault : Fault} (h : v.relabel f = (Verdict.fault fault).relabel f) :
    v = .fault fault := by
  cases v with
  | fault => exact h
  | var | opens | includes => cases h

theorem relabel_eq_var {kind : EscapeKind} {name : Text}
    (h : v.relabel f = (Verdict.var kind name).relabel f) : v = .var kind name := by
  cases v with
  | var => exact h
  | fault | opens | includes => cases h

theorem relabel_eq_includes {name path : Text}
    (h : v.relabel f = (Verdict.includes name path).relabel f) : v = .includes name path := by
  cases v with
  | includes => exact h
  | fault | opens | var => cases h

theorem relabel_eq_opens {name : Text} {inner after : List Piece} {c : Token}
    (h : v.relabel f = (Verdict.opens name inner c after).relabel f) :
    ∃ inner' c' after', v = .opens name inner' c' after' ∧
      inner'.map (Piece.relabel f) = inner.map (Piece.relabel f) ∧ f c' = f c ∧
      after'.map (Piece.relabel f) = after.map (Piece.relabel f) := by
  cases v with
  | opens name' inner' c' after' =>
    obtain ⟨rfl, hinner, hc, hafter⟩ := Verdict.opens.inj h
    exact ⟨inner', c', after', rfl, hinner, hc, hafter⟩
  | fault | var | includes => cases h

end Verdict

end Stencil
