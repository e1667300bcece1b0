import Stencil.Proofs.Markup.Places
import Stencil.Proofs.Markup.Reading

/-!
# Putting a token into a comment

A token that hides in no comment can be put into one of its own, with the standard markers: nothing
else about the tokens of the text changes (`tokenize_hide`).

**Tokens** (`Scanned.hide`, `Claimed.hide`). The comment holds no token of its own. The token before
it looks for the end of a comment, which `<` does not begin; the token itself takes the comment and
leaves the texts beside it as they were.

**Places** (`hide_eq`). A token stands where the texts and tokens before it end, so the text can be
changed in place.

**Ditch words** (`not_ditch_hide`). The comment completes no ditch word: its start does not end one,
and in front of its end there would have to be two closers behind a dash.
-/

namespace Stencil

/-- The token with a comment around it. -/
def Token.hidden (t : Token) (w₁ w₂ : Text) : Token :=
  { t with lead := Markers.standard.commentStart ++ w₁, trail := w₂ ++ Markers.standard.commentEnd }

/-- The source with a comment around one of its tokens. -/
def hide (source : Text) (t : Token) (w₁ w₂ : Text) : Text :=
  source.take t.pos ++
    (Markers.standard.commentStart ++ w₁ ++ t.body ++ w₂ ++ Markers.standard.commentEnd) ++
    source.drop (t.pos + t.body.length)

/-! ## Scans -/

/-- The text of the tokens before one that does not hide, and of that one. -/
theorem tailText_bare {t : Token} {q : Text} (hlead : t.lead = [])
    (hbody : t.body = '~' :: '%' :: q) (earlier later : List (Token × Text)) (after : Text) :
    ∃ r, tailText (earlier ++ (t, after) :: later) = tailText earlier ++ '~' :: '%' :: r := by
  rw [tailText_append, tailText_cons, hlead, hbody]
  exact ⟨_, rfl⟩

/-- The text of the tokens before one that hides now, and of that one. -/
theorem tailText_hidden (t : Token) (w₁ w₂ : Text) (earlier later : List (Token × Text))
    (after : Text) :
    ∃ r, tailText (earlier ++ (t.hidden w₁ w₂, after) :: later) = tailText earlier ++ '<' :: r := by
  rw [tailText_append, tailText_cons]
  exact ⟨_, rfl⟩

namespace Scanned

variable {head after w₁ w₂ : Text} {t : Token} {earlier later : List (Token × Text)}

/-- **The tokens of a text stay the same when one of them is put into a comment.** -/
theorem hide (h : Scanned .standard [] head (earlier ++ (t, after) :: later)) (hlead : t.lead = [])
    (htrail : t.trail = []) (hw₁ : ∀ c ∈ w₁, Text.isBlank c = true)
    (hw₂ : ∀ c ∈ w₂, Text.isBlank c = true) :
    Scanned .standard [] head (earlier ++ (t.hidden w₁ w₂, after) :: later) := by
  obtain ⟨q, hbody, -⟩ := Markers.token?_standard_body h.reads
  induction earlier generalizing head with
  | nil =>
    obtain ⟨hhead, ht, -, hrest⟩ := h
    rw [hlead, htrail, List.append_nil, List.nil_append] at hhead
    rw [htrail, List.nil_append] at ht
    have hlead' : '~' ∉ Markers.standard.commentStart ++ w₁ := by
      rw [List.mem_append, not_or]
      exact ⟨by decide, Text.notMem_of_blank hw₁ (by decide)⟩
    have htrail' : '~' ∉ w₂ ++ Markers.standard.commentEnd := by
      rw [List.mem_append, not_or]
      exact ⟨Text.notMem_of_blank hw₂ (by decide), by decide⟩
    refine ⟨?_, ?_, Markers.quiet_of_notMem htrail' _, hrest⟩
    · show Markers.standard.Quiet (head ++ (Markers.standard.commentStart ++ w₁)) _
      rw [Markers.quiet_append]
      refine ⟨?_, Markers.quiet_of_notMem hlead' _⟩
      rw [hbody] at hhead
      exact Markers.Quiet.survives (u := []) hhead _
    · exact Markers.token?_standard_closed ht hw₂ _
  | cons e earlier ih =>
    obtain ⟨e, text⟩ := e
    rw [List.cons_append] at h ⊢
    obtain ⟨hhead, he, htrail', hrest⟩ := h
    obtain ⟨r, hr⟩ := tailText_bare hlead hbody earlier later after
    obtain ⟨r', hr'⟩ := tailText_hidden t w₁ w₂ earlier later after
    -- What stands between the end of this token and the changed place.
    have hmiddle : ∀ v, text ++ (tailText earlier ++ v) ++ [] = text ++ tailText earlier ++ v := by
      intro v
      rw [List.append_nil, List.append_assoc]
    rw [hr, hmiddle] at hhead he htrail'
    refine ⟨?_, ?_, ?_, ih hrest⟩ <;> rw [hr', hmiddle]
    · rw [← List.append_assoc e.trail, ← List.append_assoc e.body] at hhead ⊢
      exact hhead.survives r'
    · rw [← List.append_assoc e.trail] at he ⊢
      have hne : e.body ≠ [] := Markers.valid_standard.token?_ne_nil he
      exact Markers.survives_token?.some _ _ r r' _ hne he
    · exact htrail'.survives r'

end Scanned

/-! ## Claims -/

/-- What a comment around a token looks like. -/
theorem Markers.wrapper?_standard_iff {before after : Text} {w : Wrapper} :
    standard.wrapper? before after = some w ↔
      before = w.before ++ w.lead ∧ after = w.trail ++ w.after ∧ ∃ w₁ w₂ : Text,
        (∀ c ∈ w₁, Text.isBlank c = true) ∧ (∀ c ∈ w₂, Text.isBlank c = true) ∧
          w.lead = standard.commentStart ++ w₁ ∧ w.trail = w₂ ++ standard.commentEnd := by
  have hne : standard.commentEnd ≠ [] := by decide
  constructor
  · intro h
    obtain ⟨hbefore, hafter⟩ := wrapper?_eq_some h
    exact ⟨hbefore, hafter, wrapper?_words h⟩
  · obtain ⟨kept, lead, trail, rest⟩ := w
    rintro ⟨rfl, rfl, w₁, w₂, hw₁, hw₂, rfl, rfl⟩
    have htrim : Text.trimEnd (kept ++ (standard.commentStart ++ w₁)) =
        kept ++ standard.commentStart := by
      have := Text.trimEnd_append (x := kept ++ ['<', '!', '-']) (c := '-') (by decide) hw₁
      simpa [standard] using this
    have hclosed : Text.after? standard.commentEnd
        (Text.trimStart (w₂ ++ standard.commentEnd ++ rest)) = some rest :=
      (Text.after?_trimStart_iff hne).2 ⟨⟨'-', ['-', '>'], rfl, by decide⟩, w₂, hw₂, by simp⟩
    have hlen : (w₂ ++ standard.commentEnd ++ rest).length - rest.length =
        (w₂ ++ standard.commentEnd).length := by
      rw [List.length_append, Nat.add_sub_cancel]
    unfold wrapper?
    rw [htrim, Text.upTo?_eq_some_iff.2 rfl, Option.bind_some, hclosed, Option.map_some]
    dsimp only
    rw [hlen, List.take_left, List.drop_left]

/-- What begins a comment does not end one: the token before it hides as it did. -/
theorem Hides.extend {before after : Text} {t : Token} (h : Hides .standard before t after)
    (v : Text) : Hides .standard before t (after ++ '<' :: v) := by
  unfold Hides at h ⊢
  rw [← List.append_assoc]
  rcases h with h | ⟨h, hlead, htrail⟩
  · obtain ⟨hbefore, hafter, hwords⟩ := Markers.wrapper?_standard_iff.1 h
    refine .inl (Markers.wrapper?_standard_iff.2 ⟨hbefore, ?_, hwords⟩)
    rw [List.append_assoc]
  · refine .inr ⟨?_, hlead, htrail⟩
    rw [Option.eq_none_iff_forall_ne_some] at h ⊢
    intro w hw
    obtain ⟨hbefore, hafter, w₁, w₂, hw₁, hw₂, hl, ht⟩ := Markers.wrapper?_standard_iff.1 hw
    have hmem : '<' ∉ w.trail := by
      rw [ht, List.mem_append, not_or]
      exact ⟨Text.notMem_of_blank hw₂ (by decide), by decide⟩
    obtain ⟨rest, hrest, -⟩ := eq_append_of_separated hmem hafter
    exact h ⟨w.before, w.lead, w.trail, rest⟩
      (Markers.wrapper?_standard_iff.2 ⟨hbefore, hrest, w₁, w₂, hw₁, hw₂, hl, ht⟩)

/-- A token with a comment around it hides in the comment. -/
theorem Token.hides_hidden (t : Token) {w₁ w₂ : Text} (hw₁ : ∀ c ∈ w₁, Text.isBlank c = true)
    (hw₂ : ∀ c ∈ w₂, Text.isBlank c = true) (before after : Text) :
    Hides .standard before (t.hidden w₁ w₂) after :=
  .inl (Markers.wrapper?_standard_iff.2 ⟨rfl, rfl, w₁, w₂, hw₁, hw₂, rfl, rfl⟩)

/-- **The tokens of a text hide as they did when one of them is put into a comment.** -/
theorem Claimed.hide {head after w₁ w₂ : Text} {t : Token} {earlier later : List (Token × Text)}
    (h : Claimed .standard [] head (earlier ++ (t, after) :: later)) (hlead : t.lead = [])
    (hw₁ : ∀ c ∈ w₁, Text.isBlank c = true) (hw₂ : ∀ c ∈ w₂, Text.isBlank c = true) :
    Claimed .standard [] head (earlier ++ (t.hidden w₁ w₂, after) :: later) := by
  induction earlier generalizing head with
  | nil => exact ⟨t.hides_hidden hw₁ hw₂ _ _, h.2⟩
  | cons e earlier ih =>
    obtain ⟨e, text⟩ := e
    refine ⟨?_, ih h.2⟩
    cases earlier with
    | nil =>
      -- The text behind this token went up to the one that hides now.
      have hgap : Hides .standard head e (text ++ t.lead) := h.1
      rw [hlead, List.append_nil] at hgap
      exact hgap.extend _
    | cons e' earlier => exact h.1

/-! ## The text -/

/-- The token that does not hide, in its text. -/
theorem hide_eq {head after : Text} {t : Token} {earlier later : List (Token × Text)}
    (h : Placed 0 head (earlier ++ (t, after) :: later)) (hlead : t.lead = [])
    (htrail : t.trail = []) (w₁ w₂ : Text) :
    hide (head ++ tailText (earlier ++ (t, after) :: later)) t w₁ w₂ =
      head ++ tailText (earlier ++ (t.hidden w₁ w₂, after) :: later) := by
  have hpos : t.pos = (head ++ tailText earlier).length := by
    have hpos := h.pos_eq
    rwa [hlead, List.append_nil, Nat.zero_add] at hpos
  have hsource : head ++ tailText (earlier ++ (t, after) :: later) =
      head ++ tailText earlier ++ t.body ++ (after ++ tailText later) := by
    rw [tailText_append, tailText_cons, hlead, htrail]
    simp
  unfold hide
  rw [hsource, hpos, ← List.length_append, List.drop_left, List.append_assoc _ t.body,
    List.take_left, tailText_append, tailText_cons]
  simp [Token.hidden]

/-- A word that ends in a character begins before the texts that do not have it. -/
theorem infix_of_last {w a b : Text} {c : Char} (hc : c ∉ b) (h : w ++ [c] <:+: a ++ b) :
    w ++ [c] <:+: a := by
  obtain ⟨s, v, h⟩ := h
  rw [← List.append_assoc, List.append_assoc] at h
  rcases List.append_eq_append_iff.1 h with ⟨m, rfl, hm⟩ | ⟨m, hm, rfl⟩
  · cases m with
    | nil =>
      rw [List.nil_append] at hm
      exact absurd (hm ▸ List.mem_cons_self) hc
    | cons d m =>
      obtain ⟨rfl, -⟩ := List.cons.inj hm
      exact ⟨s, m, by simp⟩
  · exact absurd (List.mem_append_right m List.mem_cons_self) hc

/-- A word that ends in a character ends before the character comes, or at it, or stands behind. -/
theorem infix_of_closed {w a b : Text} {c : Char} (hc : c ∉ w) (h : w ++ [c] <:+: a ++ c :: b) :
    w <:+: a ∨ w ++ [c] <:+: b := by
  obtain ⟨s, v, h⟩ := h
  rw [← List.append_assoc, List.append_assoc] at h
  rcases List.append_eq_append_iff.1 h with ⟨m, rfl, -⟩ | ⟨m, hm, hv⟩
  · exact .inl ⟨s, m, rfl⟩
  cases m with
  | nil => exact .inl ⟨s, [], by simpa using hm⟩
  | cons d m =>
    obtain ⟨rfl, rfl⟩ := List.cons.inj hv
    rcases List.append_eq_append_iff.1 hm with ⟨n, rfl, rfl⟩ | ⟨n, rfl, hn⟩
    · exact absurd (List.mem_append_right n List.mem_cons_self) hc
    cases n with
    | nil =>
      rw [List.nil_append] at hn
      exact absurd (hn ▸ List.mem_cons_self) hc
    | cons d' n =>
      obtain ⟨rfl, rfl⟩ := List.cons.inj hn
      exact .inr ⟨n, v, by simp⟩

/-- No ditch word comes about when a token is put into a comment. -/
theorem not_ditch_of_comment {a q b w₁ w₂ : Text}
    (h : ¬ Markers.standard.ditch <:+: a ++ '~' :: '%' :: q ++ b)
    (hq : ¬ ['-', '%', '%'] <:+: '%' :: q) (hw₁ : ∀ c ∈ w₁, Text.isBlank c = true)
    (hw₂ : ∀ c ∈ w₂, Text.isBlank c = true) :
    ¬ Markers.standard.ditch <:+: a ++ (Markers.standard.commentStart ++ w₁ ++ '~' :: '%' :: q ++
      w₂ ++ Markers.standard.commentEnd) ++ b := by
  intro hin
  have hclose : Markers.standard.ditch = ['<', '!', '-', '-', '%', '%', '-', '-'] ++ ['>'] := rfl
  have hsplit : a ++ (Markers.standard.commentStart ++ w₁ ++ '~' :: '%' :: q ++ w₂ ++
      Markers.standard.commentEnd) ++ b = (a ++ (Markers.standard.commentStart ++ w₁)) ++ '~' ::
        ('%' :: q ++ (w₂ ++ ['-', '-']) ++ '>' :: b) := by
    simp [Markers.standard]
  rw [hsplit] at hin
  rcases infix_of_separated (by decide) hin with hin | hin <;> rw [hclose] at h hin
  · -- The comment start does not end a ditch word.
    have hleft : '>' ∉ Markers.standard.commentStart ++ w₁ := by
      rw [List.mem_append, not_or]
      exact ⟨by decide, Text.notMem_of_blank hw₁ (by decide)⟩
    refine h ((infix_of_last hleft hin).trans ⟨[], '~' :: '%' :: q ++ b, ?_⟩)
    simp
  · rcases infix_of_closed (by decide) hin with hin | hin
    · -- The comment end ends no ditch word, since the token has no two closers behind a dash.
      have hright : '%' ∉ w₂ ++ ['-', '-'] := by
        rw [List.mem_append, not_or]
        exact ⟨Text.notMem_of_blank hw₂ (by decide), by decide⟩
      have hdash : ['-', '%'] ++ ['%'] <:+: '%' :: q ++ (w₂ ++ ['-', '-']) :=
        List.IsInfix.trans ⟨['<', '!', '-'], ['-', '-'], rfl⟩ hin
      exact hq (infix_of_last hright hdash)
    · exact h (hin.trans ⟨a ++ '~' :: '%' :: q, [], by simp⟩)

variable {source w₁ w₂ : Text} {t : Token}

/-- A token whose text is all there is to it hides in no comment. -/
theorem Token.bare_of_raw (h : t.raw = t.body) : t.lead = [] ∧ t.trail = [] := by
  have hlen := congrArg List.length h
  simp only [raw, List.length_append] at hlen
  exact ⟨List.eq_nil_of_length_eq_zero (by omega), List.eq_nil_of_length_eq_zero (by omega)⟩

/-- No ditch word is in a text in which a token was put into a comment. -/
theorem not_ditch_hide (hditch : ¬ Markers.standard.ditch <:+: source)
    (ht : .token t ∈ (tokenize .standard source).pieces) (hraw : t.raw = t.body)
    (hw₁ : ∀ c ∈ w₁, Text.isBlank c = true) (hw₂ : ∀ c ∈ w₂, Text.isBlank c = true) :
    ¬ Markers.standard.ditch <:+: hide source t w₁ w₂ := by
  obtain ⟨hlead, htrail⟩ := Token.bare_of_raw hraw
  obtain ⟨before, rest, hpieces⟩ := List.append_of_mem ht
  obtain ⟨head, earlier, after, later, -, -, rfl, hs, -, hp⟩ :=
    tokenize_split Markers.valid_standard hpieces
  obtain ⟨q, hbody, hq⟩ := Markers.token?_standard_body hs.reads
  have hsource : ¬ Markers.standard.ditch <:+:
      head ++ tailText earlier ++ '~' :: '%' :: q ++ (after ++ tailText later) := by
    rw [tailText_append, tailText_cons, hlead, htrail, hbody] at hditch
    simpa using hditch
  have hnot := not_ditch_of_comment hsource hq hw₁ hw₂
  rw [hide_eq hp hlead htrail, tailText_append, tailText_cons]
  simpa [Token.hidden, hbody] using hnot

/-- **A text in which a token was put into a comment has the same tokens**, and that one hides. -/
theorem tokenize_hide (ht : .token t ∈ (tokenize .standard source).pieces) (hraw : t.raw = t.body)
    (hw₁ : ∀ c ∈ w₁, Text.isBlank c = true) (hw₂ : ∀ c ∈ w₂, Text.isBlank c = true) :
    ∃ before after, (tokenize .standard source).pieces = before ++ .token t :: after ∧
      (tokenize .standard (hide source t w₁ w₂)).pieces.map Piece.unplaced =
        (before ++ .token (t.hidden w₁ w₂) :: after).map Piece.unplaced := by
  obtain ⟨hlead, htrail⟩ := Token.bare_of_raw hraw
  obtain ⟨before, rest, hpieces⟩ := List.append_of_mem ht
  obtain ⟨head, earlier, after, later, hbefore, hrest, rfl, hs, hc, hp⟩ :=
    tokenize_split Markers.valid_standard hpieces
  refine ⟨before, rest, hpieces, ?_⟩
  rw [hide_eq hp hlead htrail, hbefore, hrest, ← Scan.pieces_append_cons, ← Scan.pieces_unplaced,
    ← Scan.pieces_unplaced]
  exact congrArg Scan.pieces (tokenize_tailText Markers.valid_standard
    (hs.hide hlead htrail hw₁ hw₂) (hc.hide hlead hw₁ hw₂))

end Stencil
