import Stencil.Proofs.Markup.Spans
import Stencil.Proofs.Parsing.Relabel

/-!
# Levels cut out by places

**Tokens of pieces** (`tokensOf`). What a token comes to depends on the tokens behind it, and not on
the texts between them (`LevelNames.judge_tokens`).

**By places** (`levelAt`). A level can be read without pieces: from the tokens and the text alone,
where every stretch of text is cut out from one place to another and every such cut may fail. It
never does (`levelAt_eq`): places that are taken in turn are in order and in the text, and the parts
are those of the pieces.

**Main result** (`tokenize_spans`). The tokens of a text are those of a scan with a span for each,
spans do not overlap, each takes in the comment around its token, and a level is cut out at the
spans. Comments are missed if a mark has a blank on the side of the token
(`tokenize_misses_comment`).
-/

namespace Stencil

/-! ## Tokens of pieces -/

def Piece.token? : Piece → Option Token
  | .text _ => none
  | .token t => some t

/-- The tokens among some pieces. -/
def tokensOf (ps : List Piece) : List Token := ps.filterMap Piece.token?

@[simp] theorem tokensOf_text (content : Text) (ps : List Piece) :
    tokensOf (.text content :: ps) = tokensOf ps := rfl

@[simp] theorem tokensOf_token (t : Token) (ps : List Piece) :
    tokensOf (.token t :: ps) = t :: tokensOf ps := rfl

theorem length_tokensOf_le (ps : List Piece) : (tokensOf ps).length ≤ ps.length :=
  List.length_filterMap_le _ _

theorem tokensOf_map_token (ts : List Token) : tokensOf (ts.map .token) = ts := by
  induction ts with
  | nil => rfl
  | cons t ts ih => rw [List.map_cons, tokensOf_token, ih]

theorem tokensOf_ofText_append (content : Text) (ps : List Piece) :
    tokensOf (Piece.ofText content ++ ps) = tokensOf ps := by
  cases content <;> rfl

theorem Scan.tokensOf_pieces (head : Text) (tail : List (Token × Text)) :
    tokensOf (Scan.pieces ⟨head, tail⟩) = tail.map Prod.fst := by
  induction tail generalizing head with
  | nil => cases head <;> rfl
  | cons e tail ih =>
    obtain ⟨t, after⟩ := e
    rw [pieces_cons, tokensOf_ofText_append, tokensOf_token, ih, List.map_cons]

theorem splitEnd_tokens (name : Text) (ps : List Piece) :
    splitEnd name ((tokensOf ps).map .token) =
      (splitEnd name ps).map fun (inner, c, after) =>
        ((tokensOf inner).map .token, c, (tokensOf after).map .token) := by
  induction ps with
  | nil => rfl
  | cons p ps ih =>
    cases p with
    | text content =>
      rw [tokensOf_text, ih, splitEnd, Option.map_map]
      rfl
    | token t =>
      rw [tokensOf_token, List.map_cons, splitEnd, ih, splitEnd]
      by_cases hk : t.kind = .closes name
      · rw [if_pos hk, if_pos hk]
        rfl
      · rw [if_neg hk, if_neg hk, Option.map_map, Option.map_map]
        rfl

/-- **The verdict on a token depends on the tokens behind it only.** -/
theorem LevelNames.judge_tokens (names : LevelNames) (t : Token) (ps : List Piece) :
    names.judge t ((tokensOf ps).map .token) =
      (names.judge t ps).map id fun ps => (tokensOf ps).map .token :=
  judge_map (f := id) (fun _ => rfl) splitEnd_tokens names t ps

/-- The tokens that an inline template claims are fewer than those behind its opening tag. -/
theorem LevelNames.length_tokensOf_of_judge_opens {names : LevelNames} {t c : Token}
    {rest : List Token} {inner after : List Piece} {name : Text}
    (h : names.judge t (rest.map .token) = .opens name inner c after) :
    (tokensOf inner).length + (tokensOf after).length < rest.length := by
  have hlen := length_of_judge_opens h
  have hinner := length_tokensOf_le inner
  have hafter := length_tokensOf_le after
  rw [List.length_map] at hlen
  omega

/-! ## Levels -/

/-- The part that a text makes; none if it is empty. -/
def textPart (content : Text) : List Part := if content.isEmpty then [] else [.text content]

/-- A text is in front of a level. -/
theorem level_ofText_append (d : Draft) (load : Text → Nat → Parsing Template) (names : LevelNames)
    (content : Text) (ps : List Piece) :
    level d load names (Piece.ofText content ++ ps) = do
      let tail ← level d load names ps
      return textPart content ++ tail := by
  cases content with
  | nil => exact (bind_pure _).symm
  | cons c content => exact level_text _

/-- The stretch of the text from one place to another. -/
def Draft.slice (d : Draft) (i j : Nat) : OptionT Parsing Text :=
  OptionT.mk (pure (d.text.slice? i j))

theorem Draft.slice_bind {α : Type} {d : Draft} {i j : Nat} {t : Text}
    (h : d.text.slice? i j = some t) (k : Text → OptionT Parsing α) :
    d.slice i j >>= k = k t := by
  unfold slice
  rw [h]
  rfl

/-- The parts of a level that goes from one place to another, with every stretch of text cut out at
the places of its tokens. It is `none` if a cut fails. -/
def levelAt (d : Draft) (load : Text → Nat → Parsing Template) (names : LevelNames)
    (pos stop : Nat) : List Token → OptionT Parsing (List Part)
  | [] => do
    let content ← d.slice pos stop
    return textPart content
  | t :: rest => do
    let content ← d.slice pos t.start
    let raw ← d.slice t.start t.stop
    match _h : names.judge t (rest.map .token) with
    | .fault f => OptionT.lift (throw (d.error f t.pos))
    | .var kind name => do
      let tail ← levelAt d load (names.addVariable name) t.stop stop rest
      return textPart content ++ .var name kind raw :: tail
    | .opens name inner c after => do
      let _ ← d.slice t.stop c.start
      let body ← levelAt d load .empty t.stop c.start (tokensOf inner)
      let stamp ← OptionT.lift (freshStamp none)
      let close ← d.slice c.start c.stop
      let tail ← levelAt d load (names.addNested name) c.stop stop (tokensOf after)
      return textPart content ++ .nested name (.inline raw close) stamp body :: tail
    | .includes name path => do
      let template ← OptionT.lift (load path t.pos)
      let tail ← levelAt d load (names.addNested name) t.stop stop rest
      return textPart content ++
        .nested name (.included path raw) template.stamp template.parts :: tail
termination_by tokens => tokens.length
decreasing_by
  · simp
  · have := LevelNames.length_tokensOf_of_judge_opens _h
    simp
    omega
  · have := LevelNames.length_tokensOf_of_judge_opens _h
    simp
    omega
  · simp

variable {d : Draft} {load : Text → Nat → Parsing Template} {names : LevelNames} {pos stop : Nat}
  {t : Token} {rest : List Token}

theorem levelAt_nil : levelAt d load names pos stop [] = do
    let content ← d.slice pos stop
    return textPart content := by
  rw [levelAt]

theorem levelAt_cons : levelAt d load names pos stop (t :: rest) = do
    let content ← d.slice pos t.start
    let raw ← d.slice t.start t.stop
    match names.judge t (rest.map .token) with
    | .fault f => OptionT.lift (throw (d.error f t.pos))
    | .var kind name => do
      let tail ← levelAt d load (names.addVariable name) t.stop stop rest
      return textPart content ++ .var name kind raw :: tail
    | .opens name inner c after => do
      let _ ← d.slice t.stop c.start
      let body ← levelAt d load .empty t.stop c.start (tokensOf inner)
      let stamp ← OptionT.lift (freshStamp none)
      let close ← d.slice c.start c.stop
      let tail ← levelAt d load (names.addNested name) c.stop stop (tokensOf after)
      return textPart content ++ .nested name (.inline raw close) stamp body :: tail
    | .includes name path => do
      let template ← OptionT.lift (load path t.pos)
      let tail ← levelAt d load (names.addNested name) t.stop stop rest
      return textPart content ++
        .nested name (.included path raw) template.stamp template.parts :: tail := by
  rw [levelAt]
  cases names.judge t (rest.map .token) <;> rfl

/-- **Cutting a level out at its places never fails**, and gives the parts of its pieces. -/
theorem levelAt_eq {front head back : Text} {tail : List (Token × Text)} (names : LevelNames)
    (h : Located d.text front head tail back) :
    levelAt d load names front.length (front ++ (head ++ tailText tail)).length
        (tail.map Prod.fst) =
      OptionT.lift (level d load names (Scan.pieces ⟨head, tail⟩)) := by
  induction hn : tail.length using Nat.strongRecOn generalizing names front head tail back with
  | _ n ih =>
    subst hn
    cases tail with
    | nil =>
      have hpieces : Scan.pieces ⟨head, []⟩ = Piece.ofText head ++ [] := rfl
      rw [List.map_nil, levelAt_nil, Draft.slice_bind h.slice_text, hpieces, level_ofText_append,
        level_nil, pure_bind]
      simp [tailText]
    | cons e rest =>
      obtain ⟨t, after⟩ := e
      have hfirst : Located d.text front head ([] ++ (t, after) :: rest) back := h
      have hnext := h.next
      have hbehind : t.stop = (front ++ (head ++ t.raw)).length := hfirst.stop_eq
      have hhead : d.text.slice? front.length t.start = some head := by
        simpa [tailText] using hfirst.slice_inner
      have htokens : rest.map Prod.fst = tokensOf (Scan.pieces ⟨after, rest⟩) :=
        (Scan.tokensOf_pieces after rest).symm
      have hstop : (front ++ (head ++ tailText ((t, after) :: rest))).length =
          (front ++ (head ++ t.raw) ++ (after ++ tailText rest)).length := by
        simp [tailText]
      rw [List.map_cons, levelAt_cons, Draft.slice_bind hhead, Draft.slice_bind hfirst.slice_raw,
        Scan.pieces_cons, level_ofText_append, level_token, htokens, LevelNames.judge_tokens, hstop]
      cases hj : names.judge t (Scan.pieces ⟨after, rest⟩) with
      | fault f => rfl
      | var kind name =>
        have hrest := ih rest.length (by simp) (names.addVariable name) hnext rfl
        rw [← hbehind] at hrest
        simp only [Verdict.map, ← htokens, hrest, OptionT.lift_bind, OptionT.lift_pure,
          bind_assoc, pure_bind]
      | includes name path =>
        have hrest := ih rest.length (by simp) (names.addNested name) hnext rfl
        rw [← hbehind] at hrest
        simp only [Verdict.map, ← htokens, hrest, OptionT.lift_bind, OptionT.lift_pure,
          bind_assoc, pure_bind]
      | opens name inner c outer =>
        obtain ⟨-, -, hend, -⟩ := LevelNames.judge_opens hj
        obtain ⟨earlier, text, later, rfl, rfl, rfl⟩ := Scan.pieces_split (splitEnd_eq_some hend).1
        have hlen : ((t, after) :: (earlier ++ (c, text) :: later)).length =
            earlier.length + later.length + 2 := by
          simp
          omega
        have hbody := ih earlier.length (by omega) .empty hnext.left rfl
        have htail := ih later.length (by omega) (names.addNested name) hnext.right rfl
        have hinner := hnext.slice_inner
        have hlast : (front ++ (head ++ t.raw) ++ (after ++ (tailText earlier ++ c.raw)) ++
            (text ++ tailText later)).length = (front ++ (head ++ t.raw) ++
              (after ++ tailText (earlier ++ (c, text) :: later))).length := by
          rw [tailText_append, tailText_cons]
          simp [Token.raw]
        rw [← hbehind, ← hnext.start_eq] at hbody
        rw [← hnext.stop_eq, hlast] at htail
        rw [← hbehind] at hinner
        simp only [Verdict.map, id_eq, tokensOf_map_token, Scan.tokensOf_pieces]
        rw [Draft.slice_bind hinner, hbody, htail]
        simp only [Draft.slice_bind hnext.slice_raw, OptionT.lift_bind, OptionT.lift_pure,
          bind_assoc, pure_bind]

/-! ## Tokens of a text -/

/-- The token without its comment. -/
def Token.uncommented (t : Token) : Token := { t with lead := [], trail := [] }

/-- Claiming comments changes nothing else about tokens. -/
theorem claim_uncommented (m : Markers) {before : Text} {tail : List (Token × Text)}
    (h : ∀ e ∈ tail, e.1.lead = [] ∧ e.1.trail = []) :
    (claim m before tail).tokens.map Token.uncommented = tail.map Prod.fst := by
  induction tail generalizing before with
  | nil => rfl
  | cons e rest ih =>
    obtain ⟨t, after⟩ := e
    have hrest : ∀ e ∈ rest, e.1.lead = [] ∧ e.1.trail = [] :=
      fun e he => h e (List.mem_cons_of_mem _ he)
    obtain ⟨hlead, htrail⟩ := h (t, after) List.mem_cons_self
    have ht : t.uncommented = t := by
      obtain ⟨kind, pos, body, lead, trail⟩ := t
      cases hlead
      cases htrail
      rfl
    have hcons : ∀ before, t.uncommented ::
        (claim m before rest).tokens.map Token.uncommented = t :: rest.map Prod.fst := by
      intro before
      rw [ht, ih hrest]
    rw [claim]
    cases m.wrapper? before after with
    | none => exact hcons after
    | some w => exact hcons w.after

/-- **The tokens of a text and their spans.** They are the tokens that a scan finds. No span begins
before the one in front of it ends, and each is what the texts beside the token leave it
(`SpanIn`). A level whose texts are cut out at the spans has the parts of the pieces of the text: no
cut is out of order or out of the text. -/
theorem tokenize_spans {m : Markers} (hm : m.Valid) (text : Text) :
    (tokenize m text).tokens.map Token.uncommented = (scan m text).tokens ∧
      ((tokenize m text).tokens.Pairwise fun s t => s.stop ≤ t.start) ∧
      (∀ before t behind, (tokenize m text).tokens = before ++ t :: behind →
        SpanIn m text before t behind) ∧
      ∀ (d : Draft) (load : Text → Nat → Parsing Template), d.text = text →
        levelAt d load .empty 0 text.length (tokenize m text).tokens =
          OptionT.lift (level d load .empty (tokenize m text).pieces) := by
  refine ⟨claim_uncommented m (scanFrom_bare m 0 0 text), ?_⟩
  obtain ⟨hwhole, hs, hc, hplaced⟩ := tokenize_settled hm text
  generalize tokenize m text = s at hwhole hs hc hplaced ⊢
  obtain ⟨head, tail⟩ := s
  dsimp only at hwhole
  have hl : Located text [] head tail [] := ⟨by simp [hwhole], hplaced⟩
  refine ⟨hplaced.pairwise, ?_, ?_⟩
  · intro before t behind htokens
    obtain ⟨earlier, rest, rfl, rfl, hrest⟩ := List.map_eq_append_iff.1 htokens
    obtain ⟨⟨t, after⟩, later, rfl, rfl, rfl⟩ := List.map_eq_cons_iff.1 hrest
    obtain ⟨x, y, hl, hs, hc, hx⟩ := hl.skip hs hc
    exact hl.spanIn hm hs hc hx
  · rintro d load rfl
    have hcut : levelAt d load .empty 0 ([] ++ (head ++ tailText tail)).length
        (tail.map Prod.fst) = OptionT.lift (level d load .empty (Scan.pieces ⟨head, tail⟩)) :=
      levelAt_eq .empty hl
    rw [List.nil_append, ← hwhole] at hcut
    exact hcut

/-- The first token hides. The others stand side by side, so that each has but half a comment. -/
theorem tokenize_spans_halves :
    let text : Text := ['<', '!', '-', '-', ' ', '~', '%', 'a', '%', ' ', '-', '-', '>', '<', '!',
      '-', '-', ' ', '~', '%', 'b', '%', '~', '%', 'c', '%', ' ', '-', '-', '>']
    let a : Token := ⟨.var ['a'], 5, ['~', '%', 'a', '%'], ['<', '!', '-', '-', ' '],
      [' ', '-', '-', '>']⟩
    let b : Token := ⟨.var ['b'], 18, ['~', '%', 'b', '%'], [], []⟩
    let c : Token := ⟨.var ['c'], 22, ['~', '%', 'c', '%'], [], []⟩
    let d : Draft := ⟨[], text, text, []⟩
    Markers.standard.Valid ∧ Markers.standard.Tight ∧
      (tokenize .standard text).tokens = [a, b, c] ∧
      [a, b, c].Pairwise (fun s t => s.stop ≤ t.start) ∧
      SpanIn .standard text [a] b [c] ∧
      levelAt d (fun _ _ => throw (d.error .malformedTag 0)) .empty 0 text.length [a, b, c] =
        OptionT.lift (level d (fun _ _ => throw (d.error .malformedTag 0)) .empty
          [.token a, .text ['<', '!', '-', '-', ' '], .token b, .token c,
            .text [' ', '-', '-', '>']]) := by
  intro text a b c d
  have htokens : (tokenize .standard text).tokens = [a, b, c] := by decide
  have hpieces : (tokenize .standard text).pieces =
      [.token a, .text ['<', '!', '-', '-', ' '], .token b, .token c,
        .text [' ', '-', '-', '>']] := by decide
  obtain ⟨-, hpairs, hspans, hcuts⟩ := tokenize_spans Markers.valid_standard text
  have hcut := hcuts d (fun _ _ => throw (d.error .malformedTag 0)) rfl
  rw [hpieces, htokens] at hcut
  rw [htokens] at hpairs
  exact ⟨Markers.valid_standard, by decide, htokens, hpairs, hspans [a] b [c] htokens, hcut⟩

/-- The comment around a token is not found if its marks have the blanks beside the token. -/
theorem tokenize_misses_comment :
    let m : Markers := { Markers.standard with
      commentStart := ['<', '!', '-', '-', ' '], commentEnd := [' ', '-', '-', '>'] }
    let text : Text := ['<', '!', '-', '-', ' ', '~', '%', 'a', '%', ' ', '-', '-', '>']
    let t : Token := ⟨.var ['a'], 5, ['~', '%', 'a', '%'], [], []⟩
    m.Valid ∧ (tokenize m text).tokens = [t] ∧ t.Bare ∧
      ∃ x y, text.slice? 0 t.pos = some x ∧
        text.slice? (t.pos + t.body.length) text.length = some y ∧ m.Encloses x y := by
  intro m text t
  refine ⟨by decide, by decide, ⟨rfl, rfl⟩, m.commentStart, m.commentEnd, by decide, by decide, ?_⟩
  exact ⟨[], [], [], [], by simp, by simp, by simp, by simp⟩

end Stencil
