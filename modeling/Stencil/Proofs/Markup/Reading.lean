import Stencil.Proofs.Markup.Spelling

/-!
# Reading in front of a comment

With the standard markers, a text in which a token begins and the same text in which a comment
begins there are read in the same way up to that place.

**In front** (`Survives`). A reader that finds something in front of the place finds the same, and
one that found nothing finds nothing: what it waited for it would have found in `~%`.

**Inside** (`Markers.token?_standard_closed`). The token itself is read as it was with the end of a
comment behind it.
-/

namespace Stencil

/-! ## Words and characters -/

/-- A word without a character ends before the character. -/
theorem eq_append_of_separated {w s u v : Text} {c : Char} (hc : c ∉ w)
    (h : u ++ c :: v = w ++ s) : ∃ x, u = w ++ x ∧ s = x ++ c :: v := by
  rcases List.append_eq_append_iff.1 h with ⟨x, rfl, hx⟩ | ⟨x, rfl, rfl⟩
  · cases x with
    | nil => exact ⟨[], by simp, hx.symm⟩
    | cons d x =>
      obtain ⟨rfl, -⟩ := List.cons.inj hx
      exact absurd (List.mem_append_right _ List.mem_cons_self) hc
  · exact ⟨x, rfl, rfl⟩

namespace Text

theorem notMem_of_blank {w : Text} {d : Char} (hw : ∀ c ∈ w, isBlank c = true)
    (hd : isBlank d = false) : d ∉ w := by
  intro h
  rw [hw d h] at hd
  cases hd

/-- No blank is a character of a keyword. -/
theorem isKeyword_of_isBlank {c : Char} (h : isBlank c = true) : isKeyword c = false := by
  rw [← Bool.not_eq_true]
  intro hk
  have hletter : (decide ('A'.val ≤ c.val ∧ c.val ≤ 'Z'.val) ||
      (decide ('a'.val ≤ c.val) && decide (c.val ≤ 'z'.val)) || c == '_') = true := hk
  simp only [Bool.or_eq_true, Bool.and_eq_true, decide_eq_true_eq, beq_iff_eq,
    UInt32.le_iff_toNat_le] at hletter
  have hn : (65 ≤ c.toNat ∧ c.toNat ≤ 90) ∨ (97 ≤ c.toNat ∧ c.toNat ≤ 122) ∨ c.toNat = 95 := by
    rcases hletter with (hk | hk) | rfl
    · exact .inl ⟨hk.1, hk.2⟩
    · exact .inr (.inl ⟨hk.1, hk.2⟩)
    · exact .inr (.inr rfl)
  simp only [isBlank, Bool.or_eq_true, Bool.and_eq_true, decide_eq_true_eq, beq_iff_eq] at h
  omega

end Text

/-! ## Readers -/

/-- In front of the changed place, what is read is read again, and where nothing is read nothing
is. -/
structure Survives (read : Text → Option (TokenKind × Text)) : Prop where
  none : ∀ u r r', u ≠ [] → read (u ++ '~' :: '%' :: r) = none → read (u ++ '<' :: r') = none
  some : ∀ body u r r' kind, body ≠ [] → read (body ++ (u ++ '~' :: '%' :: r)) = some (kind, body) →
    read (body ++ (u ++ '<' :: r')) = some (kind, body)

namespace Survives

variable {read other : Text → Option (TokenKind × Text)}

theorem of_local (hnone : ∀ u r r', u ≠ [] → read (u ++ '~' :: '%' :: r) = Option.none →
      read (u ++ '<' :: r') = Option.none)
    (h : ∀ t kind body, read t = .some (kind, body) → ∀ v, read (body ++ v) = .some (kind, body)) :
    Survives read where
  none := hnone
  some := fun _ _ _ _ kind _ hsome => h _ kind _ hsome _

theorem or (h : Survives read) (h' : Survives other) :
    Survives fun t => (read t).or (other t) where
  none := by
    intro u r r' hu hnone
    rw [Option.or_eq_none_iff] at hnone ⊢
    exact ⟨h.none u r r' hu hnone.1, h'.none u r r' hu hnone.2⟩
  some := by
    intro body u r r' kind hbody hsome
    rw [Option.or_eq_some_iff] at hsome ⊢
    rcases hsome with hsome | ⟨hnone, hsome⟩
    · exact .inl (h.some body u r r' kind hbody hsome)
    · rw [← List.append_assoc] at hnone
      have hne : body ++ u ≠ [] := List.append_ne_nil_of_left_ne_nil hbody u
      have hnone' := h.none (body ++ u) r r' hne hnone
      rw [List.append_assoc] at hnone'
      exact .inr ⟨hnone', h'.some body u r r' kind hbody hsome⟩

end Survives

/-- What is closed behind a text is closed by a token there, if not before. -/
theorem exists_closedBy?_of_token {x v a : Text} (h : closedBy? ['%'] (x ++ v) = some a)
    (r : Text) : ∃ b, closedBy? ['%'] (x ++ '~' :: '%' :: r) = some b := by
  induction x generalizing a with
  | nil => exact ⟨['~'], rfl⟩
  | cons c x ih =>
    have hbegins : ∀ y : Text, Text.beginsWith ['%'] (c :: y) = decide ('%' = c) := by
      intro y
      by_cases hc : '%' = c
      · subst hc
        rfl
      · simp [Text.beginsWith, Text.after?, hc]
    rw [List.cons_append, closedBy?, hbegins] at h ⊢
    split at h
    · rename_i hc
      exact ⟨[], if_pos hc⟩
    rename_i hc
    split at h
    · cases h
    rename_i hbreak
    obtain ⟨b, hb, -⟩ := Option.map_eq_some_iff.1 h
    obtain ⟨b', hb'⟩ := ih hb
    rw [if_neg hc, if_neg hbreak, hb']
    exact ⟨_, rfl⟩

theorem closedBy?_notMem {c : Char} {t x : Text} (h : closedBy? [c] t = some x) : c ∉ x := by
  induction t generalizing x with
  | nil => cases h
  | cons d t ih =>
    rw [closedBy?] at h
    split at h
    · cases h
      exact List.not_mem_nil
    rename_i hbegins
    split at h
    · cases h
    obtain ⟨y, hy, rfl⟩ := Option.map_eq_some_iff.1 h
    rw [List.mem_cons, not_or]
    refine ⟨?_, ih hy⟩
    rintro rfl
    exact hbegins (Text.beginsWith_iff.2 ⟨t, rfl⟩)

namespace Markers

theorem survives_stray? : Survives standard.stray? := by
  refine .of_local (fun u r r' _ h => ?_) fun t kind body h => stray?_local h
  rw [Option.eq_none_iff_forall_ne_some] at h ⊢
  rintro ⟨kind, body⟩ hsome
  obtain ⟨hbegins, rfl, rfl⟩ := stray?_eq_some_iff.1 hsome
  obtain ⟨s, hs⟩ := Text.beginsWith_iff.1 hbegins
  obtain ⟨x, rfl, -⟩ := eq_append_of_separated (by decide) hs
  exact h _ (stray?_eq_some_iff.2
    ⟨Text.beginsWith_iff.2 ⟨x ++ '~' :: '%' :: r, List.append_assoc ..⟩, rfl, rfl⟩)

theorem survives_var? : Survives standard.var? := by
  refine .of_local (fun u r r' _ h => ?_) fun t kind body h => var?_local h
  rw [Option.eq_none_iff_forall_ne_some] at h ⊢
  rintro ⟨kind, body⟩ hsome
  obtain ⟨name, s, hs, hname, -, -⟩ := var?_eq_some_iff.1 hsome
  obtain ⟨x, rfl, rfl⟩ := eq_append_of_separated (by decide) hs
  obtain ⟨name', hname'⟩ := exists_closedBy?_of_token hname r
  exact h _ (var?_eq_some_iff.2
    ⟨name', x ++ '~' :: '%' :: r, List.append_assoc .., hname', rfl, rfl⟩)

theorem survives_tag? : Survives standard.tag? := by
  refine .of_local (fun u r r' _ h => ?_) fun t kind body h => tag?_local h
  rw [Option.eq_none_iff_forall_ne_some] at h ⊢
  rintro ⟨kind, body⟩ hsome
  obtain ⟨keyword, arg, s, hne, hword, hs, harg, -, -⟩ := tag?_eq_some_iff.1 hsome
  -- The keyword and its colon end before the changed place.
  have hopener : '<' ∉ standard.tagStart ++ (keyword ++ [':']) := by
    simp only [List.mem_append, not_or]
    exact ⟨by decide, fun hmem => absurd (hword _ hmem) (by decide), by decide⟩
  have hs' : u ++ '<' :: r' = standard.tagStart ++ (keyword ++ [':']) ++ s := by simp [hs]
  obtain ⟨x, rfl, rfl⟩ := eq_append_of_separated hopener hs'
  obtain ⟨arg', harg'⟩ := exists_closedBy?_of_token harg r
  exact h _ (tag?_eq_some_iff.2
    ⟨keyword, arg', x ++ '~' :: '%' :: r, hne, hword, by simp, harg', rfl, rfl⟩)

theorem token?_standard (t : Text) :
    standard.token? t = ((standard.tag? t).or (standard.stray? t)).or (standard.var? t) := rfl

/-- **What is read in front of the changed place does not change.** -/
theorem survives_token? : Survives standard.token? :=
  (survives_tag?.or survives_stray?).or survives_var?

/-- How every token begins, and that no two closers stand behind a dash in it. -/
theorem token?_standard_body {t body : Text} {kind : TokenKind}
    (h : standard.token? t = some (kind, body)) :
    ∃ q, body = '~' :: '%' :: q ∧ ¬ ['-', '%', '%'] <:+: '%' :: q := by
  have hlast : ∀ y : Text, '%' ∉ y → ¬ ['-', '%', '%'] <:+: y ++ ['%'] := by
    intro y hy hin
    have hcount := hin.sublist.count_le '%'
    rw [List.count_append, List.count_eq_zero_of_not_mem hy] at hcount
    exact absurd hcount (by decide)
  have hfirst : ∀ y : Text, ¬ ['-', '%', '%'] <:+: y → ¬ ['-', '%', '%'] <:+: '%' :: y := by
    intro y hy hin
    rcases List.infix_cons_iff.1 hin with ⟨z, hz⟩ | hin
    · exact absurd (List.cons.inj hz).1 (by decide)
    · exact hy hin
  rcases token?_cases h with h | h | h
  · obtain ⟨keyword, arg, r, -, hword, -, harg, -, rfl⟩ := tag?_eq_some_iff.1 h
    have hinside : '%' ∉ keyword ++ ':' :: arg := by
      simp only [List.mem_append, List.mem_cons, not_or]
      exact ⟨fun hmem => absurd (hword _ hmem) (by decide), by decide, closedBy?_notMem harg⟩
    refine ⟨'%' :: (keyword ++ ':' :: arg ++ ['%']), by simp [standard], ?_⟩
    exact hfirst _ (hfirst _ (hlast _ hinside))
  · obtain ⟨name, r, -, hname, -, rfl⟩ := var?_eq_some_iff.1 h
    exact ⟨name ++ ['%'], rfl, hfirst _ (hlast _ (closedBy?_notMem hname))⟩
  · obtain ⟨-, -, rfl⟩ := stray?_eq_some_iff.1 h
    exact ⟨['%'], rfl, by decide⟩

/-- The token is read in the same way with a comment end behind it. -/
theorem token?_standard_closed {t v w : Text} {kind : TokenKind}
    (h : standard.token? (t ++ v) = some (kind, t)) (hw : ∀ c ∈ w, Text.isBlank c = true)
    (v' : Text) : standard.token? (t ++ (w ++ standard.commentEnd ++ v')) = some (kind, t) := by
  have hbehind : ∃ c r, w ++ standard.commentEnd ++ v' = c :: r ∧ isKeyword c = false := by
    cases w with
    | nil => exact ⟨'-', _, rfl, by decide⟩
    | cons c w => exact ⟨c, _, rfl, Text.isKeyword_of_isBlank (hw c List.mem_cons_self)⟩
  obtain ⟨c, r, hbehind, hkey⟩ := hbehind
  rw [hbehind]
  rw [token?_standard, Option.or_eq_some_iff, Option.or_eq_some_iff] at h ⊢
  rcases h with (h | ⟨-, h⟩) | ⟨hnone, h⟩
  · exact .inl (.inl (tag?_local h _))
  · refine .inl (.inr ⟨?_, stray?_local h _⟩)
    obtain ⟨-, -, rfl⟩ := stray?_eq_some_iff.1 h
    rw [Option.eq_none_iff_forall_ne_some]
    rintro ⟨kind', body⟩ htag
    obtain ⟨keyword, arg, s, hne, hword, hs, -, -, -⟩ := tag?_eq_some_iff.1 htag
    -- The keyword would begin behind the opener, where no keyword does.
    cases keyword with
    | nil => exact hne rfl
    | cons d keyword =>
      obtain ⟨rfl, -⟩ := List.cons.inj (List.append_cancel_left hs)
      exact absurd (hword c List.mem_cons_self) (by simp [hkey])
  · refine .inr ⟨?_, var?_local h _⟩
    obtain ⟨name, s, -, -, -, rfl⟩ := var?_eq_some_iff.1 h
    -- The tag opener is no longer than the variable, so what is behind it does not matter.
    have hlen : standard.tagStart.length ≤
        (standard.varStart ++ (name ++ standard.varEnd)).length := by
      simp [standard]
    have hopener : ¬ standard.tagStart <+:
        standard.varStart ++ (name ++ standard.varEnd) ++ c :: r := by
      intro hprefix
      obtain ⟨z, hz⟩ := List.prefix_of_prefix_length_le hprefix (List.prefix_append _ _) hlen
      have hstray := (Option.or_eq_none_iff.1 hnone).2
      rw [← hz, stray?, if_pos (Text.beginsWith_iff.2 ⟨z ++ v, List.append_assoc ..⟩)] at hstray
      cases hstray
    rw [Option.or_eq_none_iff, Option.eq_none_iff_forall_ne_some, Option.eq_none_iff_forall_ne_some]
    refine ⟨fun ⟨kind', body⟩ htag => ?_, fun ⟨kind', body⟩ hstray => ?_⟩
    · obtain ⟨keyword, arg, x, -, -, hx, -, -, -⟩ := tag?_eq_some_iff.1 htag
      exact hopener ⟨_, hx.symm⟩
    · obtain ⟨x, hx⟩ := Text.beginsWith_iff.1 (stray?_eq_some_iff.1 hstray).1
      exact hopener ⟨x, hx.symm⟩

/-! ## Quiet texts -/

theorem Quiet.survives {x u r : Text} (h : standard.Quiet x (u ++ '~' :: '%' :: r)) (r' : Text) :
    standard.Quiet x (u ++ '<' :: r') := by
  induction x with
  | nil => trivial
  | cons c x ih =>
    obtain ⟨hc, hx⟩ := h
    refine ⟨?_, ih hx⟩
    rw [← List.append_assoc] at hc ⊢
    exact survives_token?.none (c :: (x ++ u)) r r' (List.cons_ne_nil _ _) hc

/-- No token begins where there is no tilde. -/
theorem quiet_of_notMem {x : Text} (h : '~' ∉ x) (next : Text) : standard.Quiet x next := by
  induction x with
  | nil => trivial
  | cons c x ih =>
    rw [List.mem_cons, not_or] at h
    refine ⟨token?_standard_eq_none fun ⟨r, hr⟩ => ?_, ih h.2⟩
    exact h.1 (List.cons.inj hr).1

end Markers

end Stencil
