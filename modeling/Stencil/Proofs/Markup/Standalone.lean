import Stencil.Proofs.Markup.Lossless

/-!
# Pieces that stand alone

The pieces between two tokens of a text are the pieces of the text between those tokens.

**Less behind** (`Shrinks`). What begins a text is found there as well when some of the text behind
it is gone. Each way to read a token looks no further than the token, so one that is tried first and
finds nothing finds nothing in a shorter text either.

**Scans** (`Scanned`, `Claimed`). What it is for texts and tokens to be scanned and for comments to
be claimed, with more text behind: no token begins in a text between tokens, each token is the one
found at its place, and each token hides exactly if the texts beside it say so. Both hold of the
tokens of a text, of every stretch of them, and then with nothing behind.

**Main fact** (`Standalone.pieces_eq`). Texts and tokens of this kind are what their own text is cut
into, up to the positions of tokens.
-/

namespace Stencil

/-! ## Less behind a token -/

theorem closedBy?_of_beginsWith {closer t : Text} (h : Text.beginsWith closer t = true) :
    closedBy? closer t = some [] := by
  cases t with
  | nil =>
    obtain ⟨r, hr⟩ := Text.beginsWith_iff.1 h
    have hnil : closer = [] := (List.append_eq_nil_iff.1 hr.symm).1
    simp [closedBy?, hnil]
  | cons c t => simp [closedBy?, h]

/-- What is closed depends on no text behind the closer. -/
theorem closedBy?_local {closer t a : Text} (h : closedBy? closer t = some a) (v : Text) :
    closedBy? closer (a ++ (closer ++ v)) = some a := by
  induction t generalizing a with
  | nil =>
    obtain ⟨r, hr⟩ := closedBy?_eq_some h
    obtain ⟨ha, -⟩ := List.append_eq_nil_iff.1 hr.symm
    obtain ⟨rfl, rfl⟩ := List.append_eq_nil_iff.1 ha
    exact closedBy?_of_beginsWith (Text.beginsWith_iff.2 ⟨_, rfl⟩)
  | cons c t ih =>
    rw [closedBy?] at h
    split at h
    · cases h
      exact closedBy?_of_beginsWith (Text.beginsWith_iff.2 ⟨_, rfl⟩)
    split at h
    · cases h
    rename_i hopen hbreak
    obtain ⟨b, hb, rfl⟩ := Option.map_eq_some_iff.1 h
    -- A closer that begins here would end before the one that was found.
    have hlater : ¬ Text.beginsWith closer (c :: (b ++ (closer ++ v))) = true := by
      intro hbegins
      obtain ⟨r, hr⟩ := closedBy?_eq_some hb
      obtain ⟨r', hr'⟩ := Text.beginsWith_iff.1 hbegins
      have hshort : closer <+: c :: b ++ closer := by
        refine List.prefix_of_prefix_length_le ⟨r', hr'.symm⟩ ⟨v, by simp⟩ ?_
        simp
        omega
      obtain ⟨s, hs⟩ := hshort
      refine hopen (Text.beginsWith_iff.2 ⟨s ++ r, ?_⟩)
      rw [hr, ← List.append_assoc, hs]
      simp
    rw [List.cons_append, closedBy?, if_neg hlater, if_neg hbreak, ih hb]
    rfl

/-- What begins a text is found as well when some of the text behind it is gone. -/
structure Shrinks (read : Text → Option (TokenKind × Text)) : Prop where
  none : ∀ u v, read (u ++ v) = none → read u = none
  some : ∀ u v kind body, read (body ++ (u ++ v)) = some (kind, body) →
    read (body ++ u) = some (kind, body)

namespace Shrinks

variable {read other : Text → Option (TokenKind × Text)}

/-- A reader that looks no further than what it finds. -/
theorem of_local (h : ∀ t kind body, read t = .some (kind, body) →
    (∃ r, t = body ++ r) ∧ ∀ v, read (body ++ v) = .some (kind, body)) : Shrinks read where
  none := by
    intro u v hnone
    cases hu : read u with
    | none => rfl
    | some r =>
      obtain ⟨⟨s, rfl⟩, hlocal⟩ := h u r.1 r.2 hu
      rw [List.append_assoc, hlocal (s ++ v)] at hnone
      cases hnone
  some := fun u v kind body hsome => (h _ kind body hsome).2 u

/-- The second reader is asked if the first finds nothing. -/
theorem or (h : Shrinks read) (h' : Shrinks other) :
    Shrinks fun t => (read t).or (other t) where
  none := by
    intro u v hnone
    rw [Option.or_eq_none_iff] at hnone ⊢
    exact ⟨h.none u v hnone.1, h'.none u v hnone.2⟩
  some := by
    intro u v kind body hsome
    rw [Option.or_eq_some_iff] at hsome ⊢
    rcases hsome with hsome | ⟨hnone, hsome⟩
    · exact .inl (h.some u v kind body hsome)
    · rw [← List.append_assoc] at hnone
      exact .inr ⟨h.none _ v hnone, h'.some u v kind body hsome⟩

end Shrinks

namespace Markers

variable (m : Markers)

variable {m} {t body : Text} {kind : TokenKind}

/-- A tag is read in the same way with anything behind it. -/
theorem tag?_local (h : m.tag? t = some (kind, body)) (v : Text) :
    m.tag? (body ++ v) = some (kind, body) := by
  obtain ⟨keyword, arg, r, hne, hword, -, harg, rfl, rfl⟩ := tag?_eq_some_iff.1 h
  exact tag?_eq_some_iff.2 ⟨keyword, arg, arg ++ (m.tagEnd ++ v), hne, hword, by simp,
    closedBy?_local harg v, rfl, rfl⟩

/-- A variable is read in the same way with anything behind it. -/
theorem var?_local (h : m.var? t = some (kind, body)) (v : Text) :
    m.var? (body ++ v) = some (kind, body) := by
  obtain ⟨name, r, -, hname, rfl, rfl⟩ := var?_eq_some_iff.1 h
  exact var?_eq_some_iff.2 ⟨name, name ++ (m.varEnd ++ v), by simp, closedBy?_local hname v,
    rfl, rfl⟩

/-- A stray opener is read in the same way with anything behind it. -/
theorem stray?_local (h : m.stray? t = some (kind, body)) (v : Text) :
    m.stray? (body ++ v) = some (kind, body) := by
  obtain ⟨-, rfl, rfl⟩ := stray?_eq_some_iff.1 h
  exact stray?_eq_some_iff.2 ⟨Text.beginsWith_iff.2 ⟨v, rfl⟩, rfl, rfl⟩

variable (m)

/-- **Whether a token begins a text does not depend on the text behind the token.** -/
theorem shrinks_token? : Shrinks m.token? := by
  have htag : Shrinks m.tag? := .of_local fun _ _ _ h => ⟨tag?_eq_some h, tag?_local h⟩
  have hvar : Shrinks m.var? := .of_local fun _ _ _ h => ⟨var?_eq_some h, var?_local h⟩
  have hstray : Shrinks m.stray? := .of_local fun _ _ _ h => ⟨stray?_eq_some h, stray?_local h⟩
  unfold token?
  split
  · exact (htag.or hvar).or hstray
  · exact (htag.or hstray).or hvar

/-! ## Scans -/

/-- No token begins in a text with `next` behind it. -/
def Quiet : Text → Text → Prop
  | [], _ => True
  | c :: x, next => m.token? (c :: (x ++ next)) = none ∧ Quiet x next

theorem quiet_append {x y next : Text} :
    m.Quiet (x ++ y) next ↔ m.Quiet x (y ++ next) ∧ m.Quiet y next := by
  induction x with
  | nil => simp [Quiet]
  | cons c x ih => simp only [List.cons_append, Quiet, ih, List.append_assoc, and_assoc]

theorem Quiet.shrink {m : Markers} {x next v : Text} (h : m.Quiet x (next ++ v)) :
    m.Quiet x next := by
  induction x with
  | nil => trivial
  | cons c x ih =>
    obtain ⟨hc, hx⟩ := h
    rw [← List.append_assoc, ← List.cons_append] at hc
    exact ⟨m.shrinks_token?.none _ v hc, ih hx⟩

end Markers

/-- The text of tokens and the texts that follow them. -/
def tailText (tail : List (Token × Text)) : Text := tail.flatMap fun (t, after) => t.raw ++ after

theorem tailText_cons (t : Token) (after : Text) (rest : List (Token × Text)) :
    tailText ((t, after) :: rest) =
      t.lead ++ (t.body ++ (t.trail ++ (after ++ tailText rest))) := by
  simp [tailText, Token.raw]

theorem tailText_append (a b : List (Token × Text)) :
    tailText (a ++ b) = tailText a ++ tailText b := List.flatMap_append

/-- The texts and tokens are those of a text with `next` behind it. -/
def Scanned (m : Markers) (next : Text) : Text → List (Token × Text) → Prop
  | head, [] => m.Quiet head next
  | head, (t, after) :: rest =>
    m.Quiet (head ++ t.lead) (t.body ++ (t.trail ++ (after ++ tailText rest ++ next))) ∧
      m.token? (t.body ++ (t.trail ++ (after ++ tailText rest ++ next))) = some (t.kind, t.body) ∧
      m.Quiet t.trail (after ++ tailText rest ++ next) ∧ Scanned m next after rest

namespace Scanned

variable {m : Markers} {next v x head after : Text} {t : Token} {tail rest : List (Token × Text)}

/-- Text in front in which no token begins. -/
theorem head_append_iff : Scanned m next (x ++ head) tail ↔
    m.Quiet x (head ++ tailText tail ++ next) ∧ Scanned m next head tail := by
  cases tail with
  | nil =>
    rw [Scanned, Scanned, Markers.quiet_append]
    simp [tailText]
  | cons e rest =>
    obtain ⟨t, after⟩ := e
    rw [Scanned, Scanned, List.append_assoc, Markers.quiet_append, tailText_cons]
    simp only [List.append_assoc, and_assoc]

theorem shrink (h : Scanned m (next ++ v) head tail) : Scanned m next head tail := by
  induction tail generalizing head with
  | nil => exact Markers.Quiet.shrink h
  | cons e rest ih =>
    obtain ⟨t, after⟩ := e
    obtain ⟨hhead, ht, htrail, hrest⟩ := h
    simp only [← List.append_assoc] at hhead ht htrail
    refine ⟨?_, ?_, ?_, ih hrest⟩
    · simp only [← List.append_assoc]
      exact hhead.shrink
    · simp only [List.append_assoc] at ht ⊢
      have hb : m.token? (t.body ++ ((t.trail ++ (after ++ (tailText rest ++ next))) ++ v)) =
          some (t.kind, t.body) := by
        simpa using ht
      exact m.shrinks_token?.some _ v _ _ hb
    · exact htrail.shrink

/-- The texts and tokens before some others. -/
theorem left {later : List (Token × Text)} (h : Scanned m next head (tail ++ later)) :
    Scanned m (tailText later ++ next) head tail := by
  induction tail generalizing head with
  | nil =>
    have h' : Scanned m next (head ++ []) later := by simpa using h
    have := (head_append_iff.1 h').1
    simpa [Scanned] using this
  | cons e rest ih =>
    obtain ⟨t, after⟩ := e
    rw [List.cons_append] at h
    obtain ⟨hhead, ht, htrail, hrest⟩ := h
    rw [tailText_append] at hhead ht htrail
    simp only [List.append_assoc] at hhead ht htrail
    refine ⟨?_, ?_, ?_, ih hrest⟩ <;> simp only [List.append_assoc] <;> assumption

/-- The texts and tokens behind a token. -/
theorem right {earlier : List (Token × Text)}
    (h : Scanned m next head (earlier ++ (t, after) :: rest)) : Scanned m next after rest := by
  induction earlier generalizing head with
  | nil => exact h.2.2.2
  | cons e earlier ih => exact ih h.2.2.2

end Scanned

/-- The tokens of a text are scanned. -/
theorem scanned_scanFrom {m : Markers} (hm : m.Valid) (pos skip : Nat) (t : Text) :
    Scanned m [] (scanFrom m pos skip t).head (scanFrom m pos skip t).tail := by
  induction t generalizing pos skip with
  | nil =>
    rw [scanFrom]
    trivial
  | cons c cs ih =>
    cases skip with
    | succ skip =>
      rw [scanFrom]
      exact ih _ _
    | zero =>
      rw [scanFrom]
      cases ht : m.token? (c :: cs) with
      | none =>
        have htext : (scanFrom m (pos + 1) 0 cs).text = cs := scanFrom_text hm _ 0 cs
        refine (Scanned.head_append_iff (x := [c])).2 ⟨⟨?_, trivial⟩, ih _ _⟩
        rw [List.append_nil]
        show m.token? (c :: (scanFrom m (pos + 1) 0 cs).text) = none
        rw [htext, ht]
      | some r =>
        obtain ⟨kind, body⟩ := r
        obtain ⟨rest, hrest⟩ := Markers.token?_eq_some ht
        have hbody : body ≠ [] := hm.token?_ne_nil ht
        cases body with
        | nil => exact absurd rfl hbody
        | cons b bs =>
          obtain ⟨rfl, rfl⟩ := List.cons.inj hrest
          have htext : (scanFrom m (pos + 1) bs.length (bs ++ rest)).text = rest := by
            rw [scanFrom_text hm, List.drop_left]
          refine ⟨trivial, ?_, trivial, ih _ _⟩
          show m.token?
            ((c :: bs) ++ ((scanFrom m (pos + 1) bs.length (bs ++ rest)).text ++ [])) = _
          rw [htext, List.append_nil]
          exact ht

/-! ## Claims -/

/-- What stands from a text up to the next token itself, if `ahead` stands behind the last text. -/
def gap (ahead after : Text) : List (Token × Text) → Text
  | [] => after ++ ahead
  | (t, _) :: _ => after ++ t.lead

/-- The token hides exactly if the text before it and the text after it say so. -/
def Hides (m : Markers) (before : Text) (t : Token) (after : Text) : Prop :=
  m.wrapper? (before ++ t.lead) (t.trail ++ after) = some ⟨before, t.lead, t.trail, after⟩ ∨
    m.wrapper? (before ++ t.lead) (t.trail ++ after) = none ∧ t.lead = [] ∧ t.trail = []

/-- The tokens have claimed their comments, if `ahead` stands behind the last text up to the next
token. -/
def Claimed (m : Markers) (ahead : Text) : Text → List (Token × Text) → Prop
  | _, [] => True
  | head, (t, after) :: rest => Hides m head t (gap ahead after rest) ∧ Claimed m ahead after rest

/-- Blanks behind a text that does not end in one are cut off. -/
theorem Text.trimEnd_append {x w : Text} {c : Char} (hc : Text.isBlank c = false)
    (hw : ∀ d ∈ w, Text.isBlank d = true) : Text.trimEnd (x ++ [c] ++ w) = x ++ [c] := by
  have hrev : ∀ d ∈ w.reverse, Text.isBlank d = true := fun d hd => hw d (List.mem_reverse.1 hd)
  unfold trimEnd
  rw [List.reverse_append, List.dropWhile_append_of_pos hrev, List.reverse_append,
    List.reverse_singleton, List.singleton_append, List.dropWhile_cons_of_neg (by simp [hc])]
  simp

theorem Text.trimStart_eq_cons_iff {t r : Text} {c : Char} : Text.trimStart t = c :: r ↔
    isBlank c = false ∧ ∃ w : Text, (∀ x ∈ w, isBlank x = true) ∧ t = w ++ c :: r := by
  unfold trimStart
  constructor
  · intro h
    have hne : t.dropWhile isBlank ≠ [] := by
      rw [h]
      exact List.cons_ne_nil c r
    have hc : isBlank c = false := by simpa [h] using List.head_dropWhile_not isBlank hne
    obtain ⟨w, hw, hall⟩ := Text.blanks_append_trimStart t
    refine ⟨hc, w, hall, ?_⟩
    rw [← h]
    exact hw
  · rintro ⟨hc, w, hall, rfl⟩
    rw [List.dropWhile_append_of_pos hall, List.dropWhile_cons_of_neg (by simp [hc])]

/-- A closer comes first in a text but for blanks. -/
theorem Text.after?_trimStart_iff {closer t r : Text} (hne : closer ≠ []) :
    Text.after? closer (Text.trimStart t) = some r ↔
      (∃ c e, closer = c :: e ∧ isBlank c = false) ∧
        ∃ w : Text, (∀ x ∈ w, isBlank x = true) ∧ t = w ++ (closer ++ r) := by
  rw [after?_eq_some_iff]
  cases closer with
  | nil => exact absurd rfl hne
  | cons c e =>
    rw [List.cons_append, trimStart_eq_cons_iff]
    constructor
    · rintro ⟨hc, hw⟩
      exact ⟨⟨c, e, rfl, hc⟩, hw⟩
    · rintro ⟨⟨c', e', he, hc⟩, hw⟩
      obtain ⟨rfl, rfl⟩ := List.cons.inj he
      exact ⟨hc, hw⟩

namespace Markers

variable {m : Markers} {before after v trail rest : Text} {w : Wrapper}

/-- What a comment around a token consists of. -/
theorem wrapper?_words (h : m.wrapper? before after = some w) :
    ∃ w₁ w₂ : Text, (∀ c ∈ w₁, Text.isBlank c = true) ∧ (∀ c ∈ w₂, Text.isBlank c = true) ∧
      w.lead = m.commentStart ++ w₁ ∧ w.trail = w₂ ++ m.commentEnd := by
  obtain ⟨hbefore, hafter⟩ := wrapper?_eq_some h
  unfold wrapper? at h
  obtain ⟨kept, hkept, h⟩ := Option.bind_eq_some_iff.1 h
  obtain ⟨rest, hrest, rfl⟩ := Option.map_eq_some_iff.1 h
  obtain ⟨w₁, hw, hw₁⟩ := Text.trimEnd_append_blanks before
  obtain ⟨w₂, hw', hw₂⟩ := Text.blanks_append_trimStart after
  rw [Text.upTo?_eq_some_iff.1 hkept, hbefore, List.append_assoc] at hw
  rw [Text.after?_eq_some_iff.1 hrest, hafter, ← List.append_assoc] at hw'
  exact ⟨w₁, w₂, hw₁, hw₂, List.append_cancel_left hw, List.append_cancel_right hw'⟩

/-- A token that hides in no comment hides in none if some of the text behind it is gone. -/
theorem wrapper?_eq_none_of_append (hm : m.Valid)
    (h : m.wrapper? before (after ++ v) = none) : m.wrapper? before after = none := by
  have hne : m.commentEnd ≠ [] := hm.get_ne_nil .commentEnd
  unfold wrapper? at h ⊢
  cases hk : Text.upTo? m.commentStart (Text.trimEnd before) with
  | none => rfl
  | some kept =>
    rw [hk] at h
    cases hr : Text.after? m.commentEnd (Text.trimStart after) with
    | none => rfl
    | some rest =>
      obtain ⟨hc, w, hw, rfl⟩ := (Text.after?_trimStart_iff hne).1 hr
      have hlong : Text.after? m.commentEnd (Text.trimStart (w ++ (m.commentEnd ++ rest) ++ v)) =
          some (rest ++ v) :=
        (Text.after?_trimStart_iff hne).2 ⟨hc, w, hw, by simp⟩
      rw [hlong] at h
      cases h

/-- A token that hides in a comment hides in it also if some of the text behind it is gone. -/
theorem wrapper?_eq_some_of_append (hm : m.Valid) {kept lead : Text}
    (h : m.wrapper? before (trail ++ (rest ++ v)) = some ⟨kept, lead, trail, rest ++ v⟩) :
    m.wrapper? before (trail ++ rest) = some ⟨kept, lead, trail, rest⟩ := by
  have hne : m.commentEnd ≠ [] := hm.get_ne_nil .commentEnd
  unfold wrapper? at h ⊢
  obtain ⟨kept', hk, h⟩ := Option.bind_eq_some_iff.1 h
  obtain ⟨rest', hr, h⟩ := Option.map_eq_some_iff.1 h
  obtain ⟨rfl, rfl, -, rfl⟩ := Wrapper.mk.inj h
  obtain ⟨hc, w, hw, he⟩ := (Text.after?_trimStart_iff hne).1 hr
  rw [← List.append_assoc w, List.append_left_inj] at he
  subst he
  have hshort : Text.after? m.commentEnd (Text.trimStart (w ++ m.commentEnd ++ rest)) = some rest :=
    (Text.after?_trimStart_iff hne).2 ⟨hc, w, hw, by simp⟩
  rw [hk, Option.bind_some, hshort, Option.map_some]
  have hlen : (w ++ m.commentEnd ++ rest).length - rest.length = (w ++ m.commentEnd).length := by
    rw [List.length_append, Nat.add_sub_cancel]
  rw [hlen, List.take_left]

end Markers

theorem Hides.shrink {m : Markers} (hm : m.Valid) {before after v : Text} {t : Token}
    (h : Hides m before t (after ++ v)) : Hides m before t after := by
  rcases h with h | ⟨h, hlead, htrail⟩
  · exact .inl (Markers.wrapper?_eq_some_of_append hm h)
  · rw [← List.append_assoc] at h
    exact .inr ⟨Markers.wrapper?_eq_none_of_append hm h, hlead, htrail⟩

namespace Claimed

variable {m : Markers} {ahead head after : Text} {t : Token} {tail rest : List (Token × Text)}

theorem shrink (hm : m.Valid) (h : Claimed m ahead head tail) : Claimed m [] head tail := by
  induction tail generalizing head with
  | nil => trivial
  | cons e rest ih =>
    obtain ⟨t, after⟩ := e
    refine ⟨?_, ih h.2⟩
    cases rest with
    | nil =>
      have hhides : Hides m head t (after ++ ahead) := h.1
      have hless : Hides m head t after := hhides.shrink hm
      rw [gap, List.append_nil]
      exact hless
    | cons e rest => exact h.1

/-- The texts and tokens before a token. -/
theorem left (h : Claimed m ahead head (tail ++ (t, after) :: rest)) :
    Claimed m t.lead head tail := by
  induction tail generalizing head with
  | nil => trivial
  | cons e tail ih =>
    obtain ⟨t', after'⟩ := e
    refine ⟨?_, ih h.2⟩
    cases tail with
    | nil => exact h.1
    | cons e tail => exact h.1

/-- The texts and tokens behind a token. -/
theorem right {earlier : List (Token × Text)}
    (h : Claimed m ahead head (earlier ++ (t, after) :: rest)) : Claimed m ahead after rest := by
  induction earlier generalizing head with
  | nil => exact h.2
  | cons e earlier ih => exact ih h.2

end Claimed

/-- **Claiming settles which tokens hide.** -/
theorem claim_settles {m : Markers} {next before : Text} {tail : List (Token × Text)}
    (hbare : ∀ e ∈ tail, e.1.lead = [] ∧ e.1.trail = []) (h : Scanned m next before tail) :
    Scanned m next (claim m before tail).head (claim m before tail).tail ∧
      Claimed m [] (claim m before tail).head (claim m before tail).tail ∧
      gap [] (claim m before tail).head (claim m before tail).tail = before := by
  induction tail generalizing before with
  | nil => exact ⟨h, trivial, List.append_nil before⟩
  | cons e rest ih =>
    obtain ⟨t, after⟩ := e
    have hrest : ∀ e ∈ rest, e.1.lead = [] ∧ e.1.trail = [] :=
      fun e he => hbare e (List.mem_cons_of_mem _ he)
    obtain ⟨hlead, htrail⟩ := hbare (t, after) List.mem_cons_self
    obtain ⟨hbefore, ht, -, hafter⟩ := h
    dsimp only at hlead htrail
    rw [hlead, htrail, List.append_nil, List.nil_append] at hbefore
    rw [htrail, List.nil_append] at ht
    rw [claim]
    cases hw : m.wrapper? before after with
    | none =>
      obtain ⟨hs, hc, hg⟩ := ih hrest hafter
      have htext : (claim m after rest).head ++ tailText (claim m after rest).tail =
          after ++ tailText rest := claim_text after rest hrest
      rw [← htext] at hbefore ht
      refine ⟨⟨?_, ?_, ?_, hs⟩, ⟨.inr ⟨?_, hlead, htrail⟩, hc⟩, ?_⟩
      · rw [hlead, htrail, List.append_nil, List.nil_append]
        exact hbefore
      · rw [htrail, List.nil_append]
        exact ht
      · rw [htrail]
        trivial
      · rw [hlead, htrail, List.append_nil, List.nil_append, hg]
        exact hw
      · show before ++ t.lead = before
        rw [hlead, List.append_nil]
    | some w =>
      obtain ⟨rfl, rfl⟩ := Markers.wrapper?_eq_some hw
      obtain ⟨htrailing, hafter⟩ := Scanned.head_append_iff.1 hafter
      obtain ⟨hs, hc, hg⟩ := ih hrest hafter
      have htext : (claim m w.after rest).head ++ tailText (claim m w.after rest).tail =
          w.after ++ tailText rest := claim_text w.after rest hrest
      rw [← htext] at htrailing
      simp only [List.append_assoc] at hbefore ht
      rw [← List.append_assoc w.after, ← htext] at hbefore ht
      exact ⟨⟨hbefore, ht, htrailing, hs⟩, ⟨.inl (by rw [hg]; exact hw), hc⟩, rfl⟩

/-! ## Back to the text -/

/-- The token, wherever it stands. -/
def Token.unplaced (t : Token) : Token := { t with pos := 0 }

/-- The piece, wherever it stands. -/
def Piece.unplaced : Piece → Piece
  | .text content => .text content
  | .token t => .token t.unplaced

/-- The scan, wherever its tokens stand. -/
def Scan.unplaced (s : Scan) : Scan := ⟨s.head, s.tail.map fun (t, after) => (t.unplaced, after)⟩

/-- The scan before any comment was claimed. -/
def Scan.unclaimed : Text → List (Token × Text) → Scan
  | head, [] => ⟨head, []⟩
  | head, (t, after) :: rest =>
    let s := unclaimed after rest
    ⟨head ++ t.lead, ({ t with lead := [], trail := [] }, t.trail ++ s.head) :: s.tail⟩

variable {m : Markers}

theorem scanFrom_skip (pos : Nat) (x t : Text) :
    scanFrom m pos x.length (x ++ t) = scanFrom m (pos + x.length) 0 t := by
  induction x generalizing pos with
  | nil => rfl
  | cons c x ih =>
    rw [List.length_cons, List.cons_append, scanFrom, ih, Nat.add_right_comm, Nat.add_assoc]

theorem scanFrom_quiet {x next : Text} (h : m.Quiet x next) (pos : Nat) :
    scanFrom m pos 0 (x ++ next) =
      ⟨x ++ (scanFrom m (pos + x.length) 0 next).head,
        (scanFrom m (pos + x.length) 0 next).tail⟩ := by
  induction x generalizing pos with
  | nil => rfl
  | cons c x ih =>
    rw [List.cons_append, scanFrom, h.1]
    dsimp only
    rw [ih h.2, List.length_cons, Nat.add_right_comm, Nat.add_assoc]
    rfl

/-- The scan of the text is the one before the comments were claimed. -/
theorem scanFrom_unclaimed (hm : m.Valid) {head : Text} {tail : List (Token × Text)}
    (h : Scanned m [] head tail) (pos : Nat) :
    (scanFrom m pos 0 (head ++ tailText tail)).unplaced = (Scan.unclaimed head tail).unplaced := by
  induction tail generalizing head pos with
  | nil =>
    have hquiet : m.Quiet head [] := h
    rw [tailText, List.flatMap_nil, scanFrom_quiet hquiet, scanFrom, List.append_nil]
    rfl
  | cons e rest ih =>
    obtain ⟨t, after⟩ := e
    obtain ⟨hhead, ht, htrail, hrest⟩ := h
    rw [List.append_nil] at hhead ht htrail
    rw [tailText_cons, ← List.append_assoc head, scanFrom_quiet hhead]
    obtain ⟨kind, tpos, body, lead, trail⟩ := t
    have hbody : body ≠ [] := hm.token?_ne_nil ht
    cases body with
    | nil => exact absurd rfl hbody
    | cons c bs =>
      dsimp only at ht htrail ⊢
      rw [List.cons_append] at ht ⊢
      rw [scanFrom, ht]
      dsimp only
      rw [List.length_cons, Nat.add_sub_cancel, scanFrom_skip, scanFrom_quiet htrail]
      obtain ⟨hhead, htail⟩ := Scan.mk.inj (ih hrest (pos + (head ++ lead).length + 1 + bs.length +
        trail.length))
      simp only [Scan.unplaced, Scan.unclaimed, List.map_cons, List.append_nil, hhead, htail]
      rfl

theorem claim_unplaced (before : Text) (tail : List (Token × Text)) :
    (claim m before tail).unplaced =
      claim m before (tail.map fun (t, after) => (t.unplaced, after)) := by
  induction tail generalizing before with
  | nil => rfl
  | cons e rest ih =>
    obtain ⟨t, after⟩ := e
    rw [List.map_cons, claim, claim]
    cases m.wrapper? before after with
    | none =>
      simp only [← ih]
      rfl
    | some w =>
      simp only [← ih]
      rfl

/-- The comments are claimed again. -/
theorem claim_unclaimed {head : Text} {tail : List (Token × Text)} (h : Claimed m [] head tail) :
    claim m (Scan.unclaimed head tail).head (Scan.unclaimed head tail).tail = ⟨head, tail⟩ := by
  induction tail generalizing head with
  | nil => rfl
  | cons e rest ih =>
    obtain ⟨t, after⟩ := e
    obtain ⟨hhides, hrest⟩ := h
    have hgap : (Scan.unclaimed after rest).head = gap [] after rest := by
      cases rest with
      | nil => exact (List.append_nil after).symm
      | cons e rest => rfl
    rw [Scan.unclaimed]
    dsimp only
    rw [claim, hgap]
    rcases hhides with hw | ⟨hw, hlead, htrail⟩
    · rw [hw]
      dsimp only
      rw [← hgap, ih hrest]
    · rw [hw]
      dsimp only
      rw [htrail, List.nil_append, ← hgap, ih hrest, hlead, List.append_nil]
      obtain ⟨kind, pos, body, lead, trail⟩ := t
      cases hlead
      cases htrail
      rfl

/-- **Scanned and claimed texts and tokens are those of their own text.** -/
theorem tokenize_tailText (hm : m.Valid) {head : Text} {tail : List (Token × Text)}
    (hs : Scanned m [] head tail) (hc : Claimed m [] head tail) :
    (tokenize m (head ++ tailText tail)).unplaced = Scan.unplaced ⟨head, tail⟩ := by
  have hscan := scanFrom_unclaimed hm hs 0
  obtain ⟨hhead, htail⟩ := Scan.mk.inj hscan
  rw [← claim_unclaimed hc, claim_unplaced, ← htail, ← hhead, ← claim_unplaced]
  rfl

/-! ## Pieces -/

theorem Scan.pieces_cons (head after : Text) (t : Token) (rest : List (Token × Text)) :
    Scan.pieces ⟨head, (t, after) :: rest⟩ =
      Piece.ofText head ++ .token t :: Scan.pieces ⟨after, rest⟩ := by
  simp [Scan.pieces]

theorem Scan.pieces_unplaced (s : Scan) : s.unplaced.pieces = s.pieces.map Piece.unplaced := by
  have htext : ∀ t : Text, (Piece.ofText t).map Piece.unplaced = Piece.ofText t := by
    intro t
    cases t <;> rfl
  obtain ⟨head, tail⟩ := s
  induction tail generalizing head with
  | nil => simp [Scan.unplaced, Scan.pieces, htext]
  | cons e rest ih =>
    obtain ⟨t, after⟩ := e
    rw [pieces_cons, List.map_append, htext, List.map_cons, ← ih]
    show Scan.pieces ⟨head, (t.unplaced, after) :: _⟩ = _
    rw [pieces_cons]
    rfl

/-- A token among the pieces of a scan is one of its tokens. -/
theorem Scan.pieces_split {head : Text} {tail : List (Token × Text)} {t : Token}
    {before after : List Piece} (h : Scan.pieces ⟨head, tail⟩ = before ++ .token t :: after) :
    ∃ earlier text later, tail = earlier ++ (t, text) :: later ∧
      before = Scan.pieces ⟨head, earlier⟩ ∧ after = Scan.pieces ⟨text, later⟩ := by
  have hofText : ∀ (x : Text) (a b : List Piece), Piece.ofText x ≠ a ++ .token t :: b := by
    intro x a b hx
    have hmem : Piece.token t ∈ Piece.ofText x := by
      rw [hx]
      exact List.mem_append_right _ List.mem_cons_self
    cases x <;> simp [Piece.ofText] at hmem
  induction tail generalizing head before with
  | nil =>
    rw [Scan.pieces, List.flatMap_nil, List.append_nil] at h
    exact absurd h (hofText _ _ _)
  | cons e rest ih =>
    obtain ⟨t', text⟩ := e
    rw [pieces_cons] at h
    have hmid : ∃ mid, before = Piece.ofText head ++ mid ∧
        .token t' :: Scan.pieces ⟨text, rest⟩ = mid ++ .token t :: after := by
      rcases List.append_eq_append_iff.1 h with ⟨mid, hbefore, hmid⟩ | ⟨mid, hhead, hmid⟩
      · exact ⟨mid, hbefore, hmid⟩
      cases mid with
      | nil => exact ⟨[], by simpa using hhead.symm, hmid.symm⟩
      | cons p mid =>
        obtain ⟨rfl, -⟩ := List.cons.inj hmid
        exact absurd hhead (hofText _ _ _)
    obtain ⟨mid, rfl, hmid⟩ := hmid
    cases mid with
    | nil =>
      obtain ⟨ht, rfl⟩ := List.cons.inj hmid
      cases ht
      exact ⟨[], text, rest, rfl, by simp [Scan.pieces], rfl⟩
    | cons p mid =>
      obtain ⟨rfl, hrest⟩ := List.cons.inj hmid
      obtain ⟨earlier, text', later, rfl, rfl, rfl⟩ := ih hrest
      exact ⟨(t', text) :: earlier, text', later, rfl, (pieces_cons _ _ _ _).symm, rfl⟩

/-- The pieces are those of a scan with claims, whatever stands behind them. -/
def Standalone (m : Markers) (pieces : List Piece) : Prop :=
  ∃ next ahead head tail, pieces = Scan.pieces ⟨head, tail⟩ ∧ Scanned m next head tail ∧
    Claimed m ahead head tail

theorem standalone_tokenize (hm : m.Valid) (t : Text) : Standalone m (tokenize m t).pieces := by
  obtain ⟨hs, hc, -⟩ := claim_settles (scanFrom_bare m 0 0 t) (scanned_scanFrom hm 0 0 t)
  exact ⟨[], [], _, _, rfl, hs, hc⟩

namespace Standalone

variable {ps before after : List Piece} {t : Token}

/-- The pieces on both sides of a token stand alone. -/
theorem split (h : Standalone m (before ++ .token t :: after)) :
    Standalone m before ∧ Standalone m after := by
  obtain ⟨next, ahead, head, tail, hpieces, hs, hc⟩ := h
  obtain ⟨earlier, text, later, rfl, rfl, rfl⟩ := Scan.pieces_split hpieces.symm
  exact ⟨⟨_, _, _, _, rfl, hs.left, hc.left⟩, ⟨_, _, _, _, rfl, hs.right, hc.right⟩⟩

/-- **Pieces that stand alone are the pieces of their own text.** -/
theorem pieces_eq (hm : m.Valid) (h : Standalone m ps) :
    (tokenize m (ps.flatMap Piece.raw)).pieces.map Piece.unplaced = ps.map Piece.unplaced := by
  obtain ⟨next, ahead, head, tail, rfl, hs, hc⟩ := h
  have hs' : Scanned m ([] ++ next) head tail := hs
  rw [Scan.pieces_raw, ← Scan.pieces_unplaced, ← Scan.pieces_unplaced]
  exact congrArg Scan.pieces (tokenize_tailText hm hs'.shrink (hc.shrink hm))

end Standalone

end Stencil
