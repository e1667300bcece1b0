import Stencil.Markup.Ditch
import Stencil.Markup.Wrapper

/-!
# Nothing is lost before parsing

**Cutting** (`CutAt`). What it is for segments to come from a text by cutting at the leftmost
occurrences of a word that do not overlap: the last segment has no occurrence of the word, and
before it each segment ends where the first occurrence begins. There is one way to do this, and
`Text.splitOn` finds it.

**Ditch blocks** (`kept_eq_evenSegments`). What is kept of a source is every other segment.

**Tokens** (`tokenize_text`). The tokens and the texts between them, put together again, are the
text. A token starts where it was found and takes at least one character, since no marker is
empty; the comments that tokens claim come off the texts beside them.
-/

namespace Stencil

/-! ## Cutting at a word -/

/-- The segments of a text between the leftmost, non-overlapping occurrences of a word. -/
inductive CutAt (w : Text) : Text → List Text → Prop
  | last {t : Text} (h : ∀ a b, t ≠ a ++ w ++ b) : CutAt w t [t]
  | cut {s t : Text} {segments : List Text}
      (first : ∀ a b, s ++ w ++ t = a ++ w ++ b → s.length ≤ a.length) (h : CutAt w t segments) :
      CutAt w (s ++ w ++ t) (s :: segments)

namespace CutAt

variable {w t : Text} {segments other : List Text}

/-- There is one way to cut. -/
theorem unique (h : CutAt w t segments) (h' : CutAt w t other) : segments = other := by
  induction h generalizing other with
  | @last t hno =>
    generalize hu : t = u at h'
    cases h' with
    | last => rfl
    | cut => exact absurd hu (hno _ _)
  | @cut s t segments first h ih =>
    generalize hu : s ++ w ++ t = u at h'
    cases h' with
    | last hno => exact absurd hu.symm (hno _ _)
    | @cut s' t' segments' first' h' =>
      have hlen : s.length = s'.length :=
        Nat.le_antisymm (first s' t' hu) (first' s t hu.symm)
      rw [List.append_assoc, List.append_assoc] at hu
      obtain ⟨rfl, hrest⟩ := List.append_inj hu hlen
      rw [List.append_cancel_left hrest] at ih
      rw [ih h']

/-- A character goes before the first segment if no occurrence begins there. -/
theorem cons (h : CutAt w t segments) {c : Char} (hc : Text.after? w (c :: t) = none) :
    CutAt w (c :: t) (segments.modifyHead (c :: ·)) := by
  have hstart : ∀ b, c :: t ≠ w ++ b := by
    intro b hb
    rw [Text.after?_eq_some_iff.2 hb] at hc
    cases hc
  cases h with
  | last hno =>
    refine .last fun a b hab => ?_
    cases a with
    | nil => exact hstart b hab
    | cons d a => exact hno a b (List.cons.inj hab).2
  | @cut s t segments first h =>
    have hcut : CutAt w ((c :: s) ++ w ++ t) ((c :: s) :: segments) := by
      refine .cut (fun a b hab => ?_) h
      cases a with
      | nil => exact absurd hab (hstart b)
      | cons d a => exact Nat.succ_le_succ (first a b (List.cons.inj hab).2)
    exact hcut

/-- **Splitting cuts at the leftmost occurrences.** -/
theorem splitOn (hw : w ≠ []) (t : Text) : CutAt w t (Text.splitOn w t) := by
  induction hn : t.length using Nat.strongRecOn generalizing t with
  | _ n ih =>
    subst hn
    cases t with
    | nil =>
      refine .last fun a b hab => hw ?_
      have hlen := congrArg List.length hab
      simp only [List.length_nil, List.length_append] at hlen
      exact List.eq_nil_of_length_eq_zero (by omega)
    | cons c t =>
      rw [Text.splitOn_cons hw]
      cases ha : Text.after? w (c :: t) with
      | none => exact (ih t.length (Nat.lt_succ_self _) t rfl).cons ha
      | some r =>
        have heq : c :: t = [] ++ w ++ r := Text.after?_eq_some_iff.1 ha
        have hlt : r.length < (c :: t).length := by
          have hpos := List.length_pos_iff.2 hw
          have hlen := congrArg List.length heq
          simp only [List.nil_append, List.length_append] at hlen
          omega
        have hcut := ih r.length hlt r rfl
        rw [heq]
        exact .cut (fun _ _ _ => Nat.zero_le _) hcut

theorem iff_eq_splitOn (hw : w ≠ []) : CutAt w t segments ↔ segments = Text.splitOn w t := by
  constructor
  · exact fun h => h.unique (.splitOn hw t)
  · rintro rfl
    exact .splitOn hw t

end CutAt

/-! ## Ditch blocks -/

/-- The segments at even places, counted from zero, put together. -/
def evenSegments (segments : List Text) : Text :=
  (segments.zipIdx.filter fun e => e.2 % 2 = 0).flatMap fun e => e.1

/-- What is kept of a source is every other segment. -/
theorem kept_eq_evenSegments (segments : List Text) :
    Ditch.kept segments = evenSegments segments := by
  have h : ∀ (segments : List Text) (k : Nat), k % 2 = 0 → Ditch.kept segments =
      ((segments.zipIdx k).filter fun e => e.2 % 2 = 0).flatMap fun e => e.1 := by
    intro segments
    induction segments using Ditch.kept.induct with
    | case1 => exact fun _ _ => rfl
    | case2 s => exact fun k hk => by simp [Ditch.kept, hk]
    | case3 s gone rest ih =>
      intro k hk
      have hodd : ¬ (k + 1) % 2 = 0 := by omega
      have heven : (k + 1 + 1) % 2 = 0 := by omega
      rw [Ditch.kept, ih (k + 1 + 1) heven]
      simp [List.zipIdx_cons, hk, hodd]
  exact h segments 0 rfl

/-! ## Scanning -/

namespace Markers

variable {m : Markers} {t body : Text} {kind : TokenKind}

/-- A token takes at least one character. -/
theorem Valid.token?_ne_nil (hm : m.Valid) (h : m.token? t = some (kind, body)) : body ≠ [] := by
  rcases token?_cases h with h | h | h
  · obtain ⟨keyword, arg, r, -, -, -, -, -, rfl⟩ := tag?_eq_some_iff.1 h
    exact List.append_ne_nil_of_left_ne_nil (hm.get_ne_nil .tagStart) _
  · obtain ⟨name, r, -, -, -, rfl⟩ := var?_eq_some_iff.1 h
    exact List.append_ne_nil_of_left_ne_nil (hm.get_ne_nil .varStart) _
  · obtain ⟨-, -, rfl⟩ := stray?_eq_some_iff.1 h
    exact hm.get_ne_nil .tagStart

end Markers

variable {m : Markers}

/-- A scan with a token in front, after some text. -/
theorem Scan.text_cons (before : Text) (t : Token) (s : Scan) :
    Scan.text ⟨before, (t, s.head) :: s.tail⟩ = before ++ (t.raw ++ s.text) := by
  simp [Scan.text]

/-- The text of a scan is the text that was scanned, without what was passed over. -/
theorem scanFrom_text (hm : m.Valid) (pos skip : Nat) (t : Text) :
    (scanFrom m pos skip t).text = t.drop skip := by
  induction t generalizing pos skip with
  | nil =>
    rw [scanFrom]
    simp [Scan.text]
  | cons c cs ih =>
    cases skip with
    | succ skip => rw [scanFrom, ih, List.drop_succ_cons]
    | zero =>
      rw [scanFrom]
      cases ht : m.token? (c :: cs) with
      | none =>
        show c :: (scanFrom m (pos + 1) 0 cs).text = c :: cs
        rw [ih, List.drop_zero]
      | some r =>
        obtain ⟨kind, body⟩ := r
        obtain ⟨rest, hrest⟩ := Markers.token?_eq_some ht
        simp only
        rw [Scan.text_cons, ih]
        cases body with
        | nil => exact absurd rfl (hm.token?_ne_nil ht)
        | cons b bs =>
          obtain ⟨rfl, rfl⟩ := List.cons.inj hrest
          simp [Token.raw]

/-- The tokens of a scan hide in no comment yet. -/
theorem scanFrom_bare (m : Markers) (pos skip : Nat) (t : Text) :
    ∀ e ∈ (scanFrom m pos skip t).tail, e.1.lead = [] ∧ e.1.trail = [] := by
  induction t generalizing pos skip with
  | nil =>
    rw [scanFrom]
    exact fun _ h => nomatch h
  | cons c cs ih =>
    cases skip with
    | succ skip =>
      rw [scanFrom]
      exact ih _ _
    | zero =>
      rw [scanFrom]
      cases m.token? (c :: cs) with
      | none => exact ih _ _
      | some r =>
        intro e he
        rcases List.mem_cons.1 he with rfl | he
        · exact ⟨rfl, rfl⟩
        · exact ih _ _ e he

/-! ## Claims -/

/-- The comment around a token, and what it leaves, make up the texts on both sides. -/
theorem Markers.wrapper?_eq_some {before after : Text} {w : Wrapper}
    (h : m.wrapper? before after = some w) :
    before = w.before ++ w.lead ∧ after = w.trail ++ w.after := by
  unfold wrapper? at h
  obtain ⟨kept, hk, h⟩ := Option.bind_eq_some_iff.1 h
  obtain ⟨rest, hr, rfl⟩ := Option.map_eq_some_iff.1 h
  obtain ⟨blanks, hbefore, -⟩ := Text.trimEnd_append_blanks before
  obtain ⟨blanks', hafter, -⟩ := Text.blanks_append_trimStart after
  rw [Text.upTo?_eq_some_iff] at hk
  rw [Text.after?_eq_some_iff] at hr
  constructor
  · show before = kept ++ before.drop kept.length
    rw [hbefore, hk, List.append_assoc, List.drop_left]
  · show after = after.take (after.length - rest.length) ++ rest
    have hsplit : after = (blanks' ++ m.commentEnd) ++ rest := by
      rw [List.append_assoc, ← hr]
      exact hafter
    have hlen : after.length - rest.length = (blanks' ++ m.commentEnd).length := by
      have := congrArg List.length hsplit
      rw [List.length_append] at this
      omega
    have htake : after.take (blanks' ++ m.commentEnd).length = blanks' ++ m.commentEnd := by
      rw [hsplit, List.take_left]
    rw [hlen, htake]
    exact hsplit

/-- Claiming comments loses nothing. -/
theorem claim_text (before : Text) (tail : List (Token × Text))
    (h : ∀ e ∈ tail, e.1.lead = [] ∧ e.1.trail = []) :
    (claim m before tail).text = Scan.text ⟨before, tail⟩ := by
  induction tail generalizing before with
  | nil => rfl
  | cons e rest ih =>
    obtain ⟨t, after⟩ := e
    have hrest : ∀ e ∈ rest, e.1.lead = [] ∧ e.1.trail = [] :=
      fun e he => h e (List.mem_cons_of_mem _ he)
    obtain ⟨hlead, htrail⟩ := h (t, after) List.mem_cons_self
    rw [claim, Scan.text_cons before t ⟨after, rest⟩]
    cases hw : m.wrapper? before after with
    | none =>
      simp only
      rw [Scan.text_cons, ih after hrest]
    | some w =>
      obtain ⟨hbefore, hafter⟩ := Markers.wrapper?_eq_some hw
      simp only
      rw [Scan.text_cons, ih w.after hrest]
      simp only [Token.raw, Scan.text] at hlead htrail ⊢
      rw [hlead, htrail, hbefore, hafter]
      simp

/-- **The tokens of a text, with the texts between them, are the text.** -/
theorem tokenize_text (hm : m.Valid) (t : Text) : (tokenize m t).text = t := by
  have hscan : (scan m t).text = t := scanFrom_text hm 0 0 t
  have hclaim : (tokenize m t).text = (scan m t).text :=
    claim_text _ _ (scanFrom_bare m 0 0 t)
  exact hclaim.trans hscan

/-- The pieces of a text, put together again, are the text. -/
theorem flatMap_raw_pieces (hm : m.Valid) (t : Text) :
    (tokenize m t).pieces.flatMap Piece.raw = t := by
  rw [Scan.pieces_raw, tokenize_text hm]

end Stencil
