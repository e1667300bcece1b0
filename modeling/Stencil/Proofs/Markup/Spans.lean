import Stencil.Proofs.Markup.Places

/-!
# Spans of tokens

**Slices** (`Text.slice?`). The stretch of a text between two places, if they are in order and in
the text.

**Rest of a text** (`Located`). Texts and tokens with what stands before and behind them, at their
places. One token at a time is taken over to what stands before (`Located.skip`), and the end of
what stands before is the end of the last token there, its comment included.

**Spans** (`SpanIn`). A token of a text claims no more than the stretch from the end of the token
before it, as widened by its comment, to the start of the token behind it, not yet widened. It hides
if the two texts in this stretch, cut off at their blanks, end in a comment start and begin with a
comment end. That is to say if they enclose the token (`Markers.Encloses`), unless a mark has a
blank of its own on the side of the token (`Markers.Tight`): the cut takes that blank as well, so
such a mark is never found.
-/

namespace Stencil

/-! ## Slices -/

namespace Text

/-- The stretch of a text from one place to another, if there is one. -/
def slice? (t : Text) (i j : Nat) : Option Text :=
  if i ≤ j ∧ j ≤ t.length then some ((t.take j).drop i) else none

theorem slice?_eq_some_iff {t s : Text} {i j : Nat} :
    slice? t i j = some s ↔ ∃ x y, t = x ++ (s ++ y) ∧ i = x.length ∧ j = x.length + s.length := by
  unfold slice?
  constructor
  · intro h
    by_cases hij : i ≤ j ∧ j ≤ t.length
    · rw [if_pos hij] at h
      cases h
      obtain ⟨hle, hlen⟩ := hij
      have htake : t.take i = (t.take j).take i := by
        rw [List.take_take, Nat.min_eq_left hle]
      refine ⟨t.take i, t.drop j, ?_, ?_, ?_⟩
      · rw [htake, ← List.append_assoc, List.take_append_drop, List.take_append_drop]
      · rw [List.length_take]
        omega
      · rw [List.length_take, List.length_drop, List.length_take]
        omega
    · rw [if_neg hij] at h
      cases h
  · rintro ⟨x, y, rfl, rfl, rfl⟩
    have hij : x.length ≤ x.length + s.length ∧
        x.length + s.length ≤ (x ++ (s ++ y)).length := by
      simp
    rw [if_pos hij, ← List.append_assoc, ← List.length_append, List.take_left, List.drop_left]

end Text

/-! ## The rest of a text -/

/-- The tokens of a scan. -/
def Scan.tokens (s : Scan) : List Token := s.tail.map Prod.fst

/-- The end of the last of the tokens, its comment included; `pos` if there are none. -/
def endFrom (pos : Nat) (tokens : List Token) : Nat := (tokens.getLast?.map Token.stop).getD pos

theorem endFrom_cons (pos : Nat) (t : Token) (tokens : List Token) :
    endFrom pos (t :: tokens) = endFrom t.stop tokens := by
  cases tokens with
  | nil => rfl
  | cons t' tokens => simp [endFrom, List.getLast?_cons]

/-- The start of the first of the tokens itself; the end of the text if there are none. -/
def startIn (text : Text) (tokens : List Token) : Nat :=
  (tokens.head?.map Token.pos).getD text.length

/-- Texts and tokens at their places, with `front` before them and `back` behind them. -/
structure Located (text front head : Text) (tail : List (Token × Text)) (back : Text) : Prop where
  text : text = front ++ (head ++ (tailText tail ++ back))
  placed : Placed front.length head tail

variable {m : Markers} {text front head after back : Text} {t : Token} {pos : Nat}
  {earlier rest tail : List (Token × Text)}

theorem Placed.start_eq (h : Placed pos head ((t, after) :: rest)) :
    t.start = pos + head.length := by
  have hpos := h.1
  unfold Token.start
  omega

theorem Placed.stop_eq (h : Placed pos head ((t, after) :: rest)) :
    t.stop = pos + head.length + t.raw.length := by
  have hpos := h.1
  simp only [Token.stop, Token.raw, List.length_append]
  omega

/-- The tokens begin behind what stands before them. -/
theorem Placed.le_start (h : Placed pos head tail) : ∀ e ∈ tail, pos ≤ e.1.start := by
  induction tail generalizing pos head with
  | nil => intro e he; cases he
  | cons e rest ih =>
    obtain ⟨t, after⟩ := e
    have hstart := h.start_eq
    have hstop := h.stop_eq
    intro e he
    rcases List.mem_cons.1 he with rfl | he
    · exact hstart ▸ Nat.le_add_right _ _
    · have := ih h.2 e he
      omega

/-- No token begins before the one in front of it ends. -/
theorem Placed.pairwise (h : Placed pos head tail) :
    (tail.map Prod.fst).Pairwise fun s t => s.stop ≤ t.start := by
  induction tail generalizing pos head with
  | nil => exact .nil
  | cons e rest ih =>
    obtain ⟨t, after⟩ := e
    rw [List.map_cons, List.pairwise_cons]
    refine ⟨?_, ih h.2⟩
    intro t' ht'
    obtain ⟨e, he, rfl⟩ := List.mem_map.1 ht'
    exact h.2.le_start e he

theorem Placed.left (h : Placed pos head (earlier ++ rest)) : Placed pos head earlier := by
  induction earlier generalizing pos head with
  | nil => trivial
  | cons e earlier ih => exact ⟨h.1, ih h.2⟩

namespace Located

/-- The first token is taken over to what stands before. -/
theorem next (h : Located text front head ((t, after) :: rest) back) :
    Located text (front ++ (head ++ t.raw)) after rest back where
  text := by
    rw [h.text, tailText_cons]
    simp [Token.raw]
  placed := by
    have hstop := h.placed.stop_eq
    rw [Nat.add_assoc, ← List.length_append, ← List.length_append] at hstop
    exact hstop ▸ h.placed.2

/-- The text is divided by the place of the first token. -/
theorem split (h : Located text front head ((t, after) :: rest) back) :
    text = (front ++ (head ++ t.lead)) ++
        (t.body ++ (t.trail ++ (after ++ (tailText rest ++ back)))) ∧
      t.pos = (front ++ (head ++ t.lead)).length := by
  constructor
  · rw [h.text, tailText_cons]
    simp
  · rw [h.placed.1]
    simp [Nat.add_assoc]

/-- The text before the first token, up to the token itself. -/
theorem slice_before (h : Located text front head ((t, after) :: rest) back) :
    text.slice? front.length t.pos = some (head ++ t.lead) := by
  obtain ⟨htext, hpos⟩ := h.split
  refine Text.slice?_eq_some_iff.2
    ⟨front, t.body ++ (t.trail ++ (after ++ (tailText rest ++ back))), ?_, rfl, ?_⟩
  · rw [htext, List.append_assoc]
  · rw [hpos, List.length_append]

/-- The first token itself. -/
theorem slice_body (h : Located text front head ((t, after) :: rest) back) :
    text.slice? t.pos (t.pos + t.body.length) = some t.body := by
  obtain ⟨htext, hpos⟩ := h.split
  refine Text.slice?_eq_some_iff.2 ⟨_, _, htext, hpos, ?_⟩
  rw [hpos]

/-- The texts and tokens before a token. -/
theorem left (h : Located text front head (earlier ++ (t, after) :: rest) back) :
    Located text front head earlier (t.raw ++ (after ++ (tailText rest ++ back))) where
  text := by
    rw [h.text, tailText_append, tailText_cons]
    simp [Token.raw]
  placed := h.placed.left

/-- The texts and tokens behind a token. -/
theorem right (h : Located text front head (earlier ++ (t, after) :: rest) back) :
    Located text (front ++ (head ++ (tailText earlier ++ t.raw))) after rest back := by
  induction earlier generalizing front head with
  | nil => exact h.next
  | cons e earlier ih =>
    obtain ⟨t', after'⟩ := e
    have hright := ih h.next
    have hfront : front ++ (head ++ t'.raw) ++ (after' ++ (tailText earlier ++ t.raw)) =
        front ++ (head ++ (tailText ((t', after') :: earlier) ++ t.raw)) := by
      rw [tailText_cons]
      simp [Token.raw]
    rwa [hfront] at hright

/-- The texts and tokens in their text. -/
theorem slice_text (h : Located text front head tail back) :
    text.slice? front.length (front ++ (head ++ tailText tail)).length =
      some (head ++ tailText tail) := by
  refine Text.slice?_eq_some_iff.2 ⟨front, back, ?_, rfl, List.length_append⟩
  rw [h.text, List.append_assoc]

/-- Where a token starts, its comment included. -/
theorem start_eq (h : Located text front head (earlier ++ (t, after) :: rest) back) :
    t.start = (front ++ (head ++ tailText earlier)).length := by
  have hpos := h.placed.pos_eq
  simp only [List.length_append] at hpos ⊢
  unfold Token.start
  omega

/-- Where a token ends, its comment included. -/
theorem stop_eq (h : Located text front head (earlier ++ (t, after) :: rest) back) :
    t.stop = (front ++ (head ++ (tailText earlier ++ t.raw))).length := by
  have hpos := h.placed.pos_eq
  simp only [List.length_append, Token.stop, Token.raw] at hpos ⊢
  omega

/-- **Tokens are taken over to what stands before**, and the rest is scanned and has claimed its
comments as before. -/
theorem skip (h : Located text front head (earlier ++ rest) back)
    (hs : Scanned m back head (earlier ++ rest)) (hc : Claimed m [] head (earlier ++ rest)) :
    ∃ x y, Located text x y rest back ∧ Scanned m back y rest ∧ Claimed m [] y rest ∧
      x.length = endFrom front.length (earlier.map Prod.fst) := by
  induction earlier generalizing front head with
  | nil => exact ⟨front, head, h, hs, hc, rfl⟩
  | cons e earlier ih =>
    obtain ⟨t, after⟩ := e
    obtain ⟨x, y, hl, hs, hc, hx⟩ := ih h.next hs.2.2.2 hc.2
    refine ⟨x, y, hl, hs, hc, ?_⟩
    have hfirst : Located text front head ([] ++ (t, after) :: (earlier ++ rest)) back := h
    rw [List.map_cons, endFrom_cons, hx, hfirst.stop_eq]
    rfl

/-- The texts and tokens before a token, in their text. -/
theorem slice_inner (h : Located text front head (earlier ++ (t, after) :: rest) back) :
    text.slice? front.length t.start = some (head ++ tailText earlier) := by
  rw [h.start_eq]
  exact h.left.slice_text

/-- A token with its comment. -/
theorem slice_raw (h : Located text front head (earlier ++ (t, after) :: rest) back) :
    text.slice? t.start t.stop = some t.raw := by
  refine Text.slice?_eq_some_iff.2 ⟨front ++ (head ++ tailText earlier),
    after ++ (tailText rest ++ back), ?_, h.start_eq, ?_⟩
  · rw [h.text, tailText_append, tailText_cons]
    simp [Token.raw]
  · rw [h.stop_eq]
    simp only [List.length_append, Nat.add_assoc]

/-- The text behind the first token, up to the next token itself. -/
theorem slice_behind (h : Located text front head ((t, after) :: rest) []) :
    text.slice? (t.pos + t.body.length) (startIn text (rest.map Prod.fst)) =
      some (t.trail ++ gap [] after rest) := by
  have hpos := h.placed.1
  have htext := h.text
  rw [tailText_cons] at htext
  cases rest with
  | nil =>
    refine Text.slice?_eq_some_iff.2 ⟨front ++ (head ++ (t.lead ++ t.body)), [], ?_, ?_, ?_⟩
    · rw [htext]
      simp [tailText, gap]
    · simp [hpos, Nat.add_assoc]
    · simp [startIn, htext, tailText, gap, Nat.add_assoc]
  | cons e rest =>
    obtain ⟨t', after'⟩ := e
    have hpos' : t'.pos = t.stop + after.length + t'.lead.length := h.placed.2.1
    refine Text.slice?_eq_some_iff.2 ⟨front ++ (head ++ (t.lead ++ t.body)),
      t'.body ++ (t'.trail ++ (after' ++ tailText rest)), ?_, ?_, ?_⟩
    · rw [htext, tailText_cons]
      simp [gap]
    · simp [hpos, Nat.add_assoc]
    · simp only [startIn, List.map_cons, List.head?_cons, Option.map_some, Option.getD_some, hpos',
        Token.stop, hpos, gap, List.length_append]
      omega

end Located

/-! ## Comments around tokens -/

/-- The first text ends in the start of a comment and the second one begins with its end, but for
blanks between them. -/
def Markers.Encloses (m : Markers) (before after : Text) : Prop :=
  ∃ x w₁ w₂ y : Text, (∀ c ∈ w₁, Text.isBlank c = true) ∧ (∀ c ∈ w₂, Text.isBlank c = true) ∧
    before = x ++ (m.commentStart ++ w₁) ∧ after = w₂ ++ m.commentEnd ++ y

/-- A comment start does not end in a blank, and a comment end does not begin with one. -/
def Markers.Tight (m : Markers) : Prop :=
  m.commentStart.getLast?.all (fun c => !Text.isBlank c) = true ∧
    m.commentEnd.head?.all (fun c => !Text.isBlank c) = true

instance (m : Markers) : Decidable m.Tight :=
  inferInstanceAs (Decidable (m.commentStart.getLast?.all (fun c => !Text.isBlank c) = true ∧
    m.commentEnd.head?.all (fun c => !Text.isBlank c) = true))

/-- No comment is found exactly if the texts, cut off at their blanks, have no mark there. -/
theorem Markers.wrapper?_eq_none_iff {before after : Text} : m.wrapper? before after = none ↔
    ¬ (m.commentStart <:+ Text.trimEnd before ∧ m.commentEnd <+: Text.trimStart after) := by
  constructor
  · rintro h ⟨⟨kept, hkept⟩, rest, hrest⟩
    unfold wrapper? at h
    rw [Text.upTo?_eq_some_iff.2 hkept.symm, Text.after?_eq_some_iff.2 hrest.symm] at h
    cases h
  · intro h
    cases hw : m.wrapper? before after with
    | none => rfl
    | some w =>
      unfold wrapper? at hw
      obtain ⟨kept, hkept, hw⟩ := Option.bind_eq_some_iff.1 hw
      obtain ⟨rest, hrest, -⟩ := Option.map_eq_some_iff.1 hw
      exact absurd ⟨⟨kept, (Text.upTo?_eq_some_iff.1 hkept).symm⟩,
        rest, (Text.after?_eq_some_iff.1 hrest).symm⟩ h

/-- Marks with no blank beside the token are there when the blanks are cut off. -/
theorem Markers.Tight.suffix_prefix (hm : m.Tight) {before after : Text}
    (h : m.Encloses before after) :
    m.commentStart <:+ Text.trimEnd before ∧ m.commentEnd <+: Text.trimStart after := by
  obtain ⟨x, w₁, w₂, y, hw₁, hw₂, rfl, rfl⟩ := h
  obtain ⟨hstart, hend⟩ := hm
  constructor
  · rcases List.eq_nil_or_concat m.commentStart with hnil | ⟨d, c, hd⟩
    · rw [hnil]
      exact List.nil_suffix
    · have hc : Text.isBlank c = false := by simpa [hd] using hstart
      have htrim := Text.trimEnd_append (x := x ++ d) hc hw₁
      rw [List.append_assoc x, ← List.concat_eq_append, ← hd, List.append_assoc] at htrim
      rw [htrim]
      exact List.suffix_append _ _
  · cases hd : m.commentEnd with
    | nil => exact List.nil_prefix
    | cons c d =>
      have hc : Text.isBlank c = false := by simpa [hd] using hend
      have htrim : Text.trimStart (w₂ ++ (c :: d) ++ y) = c :: (d ++ y) :=
        Text.trimStart_eq_cons_iff.2 ⟨hc, w₂, hw₂, by simp⟩
      rw [htrim]
      exact List.prefix_append (c :: d) y

/-- The span of a token is a comment start, blanks, the token itself, blanks and a comment end. -/
def Token.Hidden (m : Markers) (text : Text) (t : Token) : Prop :=
  ∃ w₁ w₂ : Text, (∀ c ∈ w₁, Text.isBlank c = true) ∧ (∀ c ∈ w₂, Text.isBlank c = true) ∧
    text.slice? t.start t.stop =
      some ((m.commentStart ++ w₁) ++ t.body ++ (w₂ ++ m.commentEnd)) ∧
    t.pos = t.start + (m.commentStart ++ w₁).length

/-- The span of a token is that of the token itself. -/
def Token.Bare (t : Token) : Prop := t.start = t.pos ∧ t.stop = t.pos + t.body.length

/-- The span of a token in a text, between the spans of the tokens before it and behind it. -/
structure SpanIn (m : Markers) (text : Text) (before : List Token) (t : Token)
    (behind : List Token) : Prop where
  room : endFrom 0 before ≤ t.start ∧ t.stop ≤ startIn text behind ∧ t.stop ≤ text.length
  holds : t.start ≤ t.pos ∧ t.pos < t.stop
  body : text.slice? t.pos (t.pos + t.body.length) = some t.body
  reads : m.token? (text.drop t.pos) = some (t.kind, t.body)
  -- What the tokens beside it leave of the text before this one and behind it decides.
  claims : ∃ x y, text.slice? (endFrom 0 before) t.pos = some x ∧
    text.slice? (t.pos + t.body.length) (startIn text behind) = some y ∧
    (t.Hidden m text ∨
      t.Bare ∧ ¬ (m.commentStart <:+ Text.trimEnd x ∧ m.commentEnd <+: Text.trimStart y) ∧
        (m.Tight → ¬ m.Encloses x y))

/-- A token that comes first in the rest of a text has its span there. -/
theorem Located.spanIn (hm : m.Valid) (h : Located text front head ((t, after) :: rest) [])
    (hs : Scanned m [] head ((t, after) :: rest)) (hc : Claimed m [] head ((t, after) :: rest))
    {before : List Token} (hbefore : front.length = endFrom 0 before) :
    SpanIn m text before t (rest.map Prod.fst) := by
  have hpos := h.placed.1
  have hstart := h.placed.start_eq
  have hstop : t.stop = t.pos + t.body.length + t.trail.length := rfl
  have hread := hs.2.1
  have hlen := List.length_pos_iff.2 (hm.token?_ne_nil hread)
  have hbehind := h.slice_behind
  obtain ⟨a, b, htext, ha, hb⟩ := Text.slice?_eq_some_iff.1 hbehind
  have hall := congrArg List.length htext
  simp only [List.length_append] at hall hb
  refine ⟨⟨by omega, by omega, by omega⟩, ⟨by omega, by omega⟩, h.slice_body, ?_, ?_⟩
  · obtain ⟨hsplit, hfront⟩ := h.split
    rw [hsplit, hfront, List.drop_left, ← List.append_assoc after]
    exact hread
  · refine ⟨_, _, hbefore ▸ h.slice_before, hbehind, ?_⟩
    rcases hc.1 with hw | ⟨hw, hlead, htrail⟩
    · obtain ⟨w₁, w₂, hw₁, hw₂, hlead, htrail⟩ := Markers.wrapper?_words hw
      dsimp only at hlead htrail
      refine .inl ⟨w₁, w₂, hw₁, hw₂, ?_, ?_⟩
      · have hfirst : Located text front head ([] ++ (t, after) :: rest) [] := h
        rw [hfirst.slice_raw, Token.raw, hlead, htrail]
      · rw [← hlead]
        omega
    · have hnone := Markers.wrapper?_eq_none_iff.1 hw
      refine .inr ⟨⟨?_, ?_⟩, hnone, fun ht he => hnone (ht.suffix_prefix he)⟩
      · simp [Token.start, hlead]
      · simp [Token.stop, htrail]

end Stencil
