import Mathlib.Data.List.Chain
import Stencil.Proofs.Markup.Places
import Stencil.Proofs.Parsing.Inline

/-!
# No markup is left in texts

**Markup** (`Markup`). A tag opener, or a variable from its opener to its closer in one line. Where
one begins a token is found, whichever opener is tried first; so none begins in a text between
tokens (`Markers.Quiet.length_le`), nor in the comment that a token hides in, and each one begins in
a token (`Scanned.token_of_markup`).

**Tidy pieces** (`Tidy`). The texts among the pieces of a scan have no markup, are not empty, and do
not stand next to each other. The same holds of every stretch of the pieces.

**Levels** (`Parsing.Ensures.level_unmarked`). The texts of a level are those of its pieces, and
between two texts of a level stands what stood between the pieces. So no level of inline templates
has markup left in its texts (`Parser.parseWith_unmarked`).
-/

namespace Stencil

/-! ## Markup -/

/-- The text begins with a tag opener, or with a variable from its opener to its closer. -/
inductive Markup (m : Markers) : Text → Prop
  | tag (r : Text) : Markup m (m.tagStart ++ r)
  | var {body : Text} (h : ∀ c ∈ body, Text.isBreak c = false) (r : Text) :
      Markup m (m.varStart ++ (body ++ (m.varEnd ++ r)))

variable {m : Markers} {next x : Text}

/-- What begins a text begins everything longer that does. -/
theorem eq_append_of_length_le {z a y : Text} (h : x ++ z = a ++ y) (hle : x.length ≤ a.length) :
    ∃ a', a = x ++ a' ∧ z = a' ++ y := by
  obtain ⟨a', rfl⟩ := List.prefix_of_prefix_length_le ⟨z, h⟩ (List.prefix_append a y) hle
  rw [List.append_assoc, List.append_cancel_left_eq] at h
  exact ⟨a', rfl, h⟩

/-- A closer in the same line is found, or one before it. -/
theorem exists_closedBy? {body : Text} (h : ∀ c ∈ body, Text.isBreak c = false)
    (closer r : Text) : ∃ a, closedBy? closer (body ++ (closer ++ r)) = some a := by
  induction body with
  | nil => exact ⟨[], closedBy?_of_beginsWith (Text.beginsWith_iff.2 ⟨r, rfl⟩)⟩
  | cons c body ih =>
    obtain ⟨a, ha⟩ := ih fun d hd => h d (List.mem_cons_of_mem _ hd)
    rw [List.cons_append, closedBy?]
    by_cases hbegins : Text.beginsWith closer (c :: (body ++ (closer ++ r))) = true
    · exact ⟨[], if_pos hbegins⟩
    · refine ⟨c :: a, ?_⟩
      rw [if_neg hbegins, h c List.mem_cons_self, ha]
      rfl

/-- **Where markup begins a token is found.** -/
theorem Markup.token?_ne_none (h : Markup m x) : m.token? x ≠ none := by
  have hor : m.stray? x ≠ none ∨ m.var? x ≠ none := by
    cases h with
    | tag r =>
      have hbegins : Text.beginsWith m.tagStart (m.tagStart ++ r) = true :=
        Text.beginsWith_iff.2 ⟨r, rfl⟩
      exact .inl (by simp [Markers.stray?, hbegins])
    | var hbody r =>
      obtain ⟨a, ha⟩ := exists_closedBy? hbody m.varEnd r
      exact .inr (by simp [Markers.var?, ha])
  intro hnone
  unfold Markers.token? at hnone
  split at hnone <;> simp only [Option.or_eq_none_iff] at hnone <;>
    rcases hor with hor | hor <;> exact hor (by simp only [hnone])

theorem Markup.ne_nil (hm : m.Valid) (h : Markup m x) : x ≠ [] := by
  cases h with
  | tag r => exact List.append_ne_nil_of_left_ne_nil (hm.get_ne_nil .tagStart) r
  | var => exact List.append_ne_nil_of_left_ne_nil (hm.get_ne_nil .varStart) _

/-- **No markup begins in a quiet text**, wherever it ends. -/
theorem Markers.Quiet.length_le (h : m.Quiet x next) {a y : Text} (hsplit : x ++ next = a ++ y)
    (hy : Markup m y) : x.length ≤ a.length := by
  induction x generalizing a with
  | nil => exact Nat.zero_le _
  | cons c x ih =>
    obtain ⟨hc, hx⟩ := h
    cases a with
    | nil =>
      rw [List.nil_append] at hsplit
      rw [← hsplit] at hy
      exact absurd hc hy.token?_ne_none
    | cons d a => exact Nat.succ_le_succ (ih hx (List.cons.inj hsplit).2)

/-- **Markup begins in a token**, and not in the comment that the token hides in. -/
theorem Scanned.token_of_markup {head : Text} {tail : List (Token × Text)}
    (h : Scanned m next head tail) {a y : Text} (hsplit : head ++ tailText tail ++ next = a ++ y)
    (hy : Markup m y) (hlt : a.length < (head ++ tailText tail).length) :
    ∃ earlier t after later, tail = earlier ++ (t, after) :: later ∧
      (head ++ tailText earlier ++ t.lead).length ≤ a.length ∧
      a.length < (head ++ tailText earlier ++ t.lead ++ t.body).length := by
  induction tail generalizing head a with
  | nil =>
    have hquiet : m.Quiet head next := h
    simp only [tailText, List.flatMap_nil, List.append_nil] at hsplit hlt
    have hle := hquiet.length_le hsplit hy
    omega
  | cons e rest ih =>
    obtain ⟨t, after⟩ := e
    obtain ⟨hhead, -, htrail, hrest⟩ := h
    rw [tailText_cons] at hsplit hlt
    have hfront : (head ++ t.lead).length ≤ a.length := by
      refine hhead.length_le (y := y) ?_ hy
      simpa using hsplit
    by_cases hbody : a.length < (head ++ t.lead ++ t.body).length
    · exact ⟨[], t, after, rest, rfl, by simpa [tailText] using hfront,
        by simpa [tailText] using hbody⟩
    -- Behind the token itself, markup begins neither in its comment nor before the next token.
    · have hwhole : head ++ t.lead ++ t.body ++ (t.trail ++ (after ++ tailText rest ++ next)) =
          a ++ y := by
        simpa using hsplit
      obtain ⟨_, rfl, hbehind⟩ := eq_append_of_length_le hwhole (Nat.le_of_not_lt hbody)
      obtain ⟨a', rfl, hsplit'⟩ := eq_append_of_length_le hbehind (htrail.length_le hbehind hy)
      have hlt' : a'.length < (after ++ tailText rest).length := by
        simp only [List.length_append] at hlt ⊢
        omega
      obtain ⟨earlier, t', after', later, rfl, hle, hge⟩ := ih hrest hsplit' hlt'
      refine ⟨(t, after) :: earlier, t', after', later, rfl, ?_, ?_⟩
      · rw [tailText_cons]
        simp only [List.length_append] at hle ⊢
        omega
      · rw [tailText_cons]
        simp only [List.length_append] at hge ⊢
        omega

/-- **Markup of a text begins in one of its tokens**, and not in the comment that this hides in. -/
theorem tokenize_markup (hm : m.Valid) {text a y : Text} (hsplit : text = a ++ y)
    (hy : Markup m y) : ∃ before t rest, (tokenize m text).pieces = before ++ .token t :: rest ∧
      (before.flatMap Piece.raw ++ t.lead).length ≤ a.length ∧
      a.length < (before.flatMap Piece.raw ++ t.lead ++ t.body).length := by
  obtain ⟨hs, -, -⟩ := claim_settles (scanFrom_bare m 0 0 text) (scanned_scanFrom hm 0 0 text)
  have hwhole : (tokenize m text).head ++ tailText (tokenize m text).tail = text :=
    tokenize_text hm text
  change Scanned m [] (tokenize m text).head (tokenize m text).tail at hs
  generalize tokenize m text = s at hs hwhole
  obtain ⟨head, tail⟩ := s
  have hlt : a.length < (head ++ tailText tail).length := by
    have hpos := List.length_pos_iff.2 (hy.ne_nil hm)
    rw [hwhole, hsplit, List.length_append]
    omega
  have hsplit' : head ++ tailText tail ++ [] = a ++ y := by
    rw [List.append_nil, hwhole, hsplit]
  obtain ⟨earlier, t, after, later, rfl, hle, hge⟩ := hs.token_of_markup hsplit' hy hlt
  have hbefore : (Scan.pieces ⟨head, earlier⟩).flatMap Piece.raw = head ++ tailText earlier :=
    Scan.pieces_raw _
  refine ⟨Scan.pieces ⟨head, earlier⟩, t, Scan.pieces ⟨after, later⟩,
    Scan.pieces_append_cons _ _ _ _ _, ?_, ?_⟩
  · rw [hbefore]
    exact hle
  · rw [hbefore]
    exact hge

/-! ## Tidy pieces -/

/-- A text with no markup in it. -/
structure Text.Unmarked (m : Markers) (x : Text) : Prop where
  nonempty : x ≠ []
  noTag : ¬ m.tagStart <:+: x
  noVariable : ∀ body, (∀ c ∈ body, Text.isBreak c = false) →
    ¬ m.varStart ++ body ++ m.varEnd <:+: x

theorem Markers.Quiet.unmarked (hm : m.Valid) (h : m.Quiet x next) (hne : x ≠ []) :
    x.Unmarked m := by
  have hnone : ∀ a w b, w ≠ [] → x = a ++ w ++ b → ¬ Markup m (w ++ b) := by
    intro a w b hw hx hy
    have hquiet : m.Quiet x ([] ++ next) := h
    have hle := hquiet.shrink.length_le (a := a) (y := w ++ b) (by simp [hx]) hy
    have hpos := List.length_pos_iff.2 hw
    rw [hx, List.length_append, List.length_append] at hle
    omega
  refine ⟨hne, ?_, ?_⟩
  · rintro ⟨a, b, hx⟩
    exact hnone a m.tagStart b (hm.get_ne_nil .tagStart) hx.symm (.tag b)
  · rintro body hbody ⟨a, b, hx⟩
    have hopener : m.varStart ++ body ++ m.varEnd ≠ [] := by
      rw [List.append_assoc]
      exact List.append_ne_nil_of_left_ne_nil (hm.get_ne_nil .varStart) _
    refine hnone a _ b hopener hx.symm ?_
    simpa using Markup.var hbody b

def Piece.isText : Piece → Bool
  | .text _ => true
  | .token _ => false

/-- The texts among the pieces have no markup and do not stand next to each other. -/
structure Tidy (m : Markers) (pieces : List Piece) : Prop where
  texts : ∀ x, .text x ∈ pieces → x.Unmarked m
  apart : pieces.IsChain fun p q => ¬ (p.isText = true ∧ q.isText = true)

namespace Tidy

variable {pieces rest : List Piece} {t : Token}

theorem of_infix (h : Tidy m pieces) (hi : rest <:+: pieces) : Tidy m rest :=
  ⟨fun x hx => h.texts x (hi.subset hx), h.apart.infix hi⟩

theorem tail {p : Piece} (h : Tidy m (p :: rest)) : Tidy m rest :=
  h.of_infix (List.suffix_cons p rest).isInfix

/-- A text and a token in front. -/
theorem of_scan (hm : m.Valid) {head : Text} {tail : List (Token × Text)}
    (h : Scanned m next head tail) : Tidy m (Scan.pieces ⟨head, tail⟩) := by
  have hhead : ∀ {x next}, m.Quiet x next → ∀ y, .text y ∈ Piece.ofText x → y.Unmarked m := by
    intro x next hx y hy
    cases x with
    | nil => cases hy
    | cons c x =>
      obtain rfl : y = c :: x := by simpa [Piece.ofText] using hy
      exact hx.unmarked hm (List.cons_ne_nil c x)
  induction tail generalizing head with
  | nil =>
    have hpieces : Scan.pieces ⟨head, []⟩ = Piece.ofText head := by simp [Scan.pieces]
    rw [hpieces]
    refine ⟨hhead h, ?_⟩
    cases head with
    | nil => exact .nil
    | cons c x => exact .singleton _
  | cons e rest ih =>
    obtain ⟨t, after⟩ := e
    obtain ⟨hfront, -, -, hrest⟩ := h
    obtain ⟨htexts, hapart⟩ := ih hrest
    rw [Scan.pieces_cons]
    have htoken : (Piece.token t :: Scan.pieces ⟨after, rest⟩).IsChain
        fun p q => ¬ (p.isText = true ∧ q.isText = true) :=
      hapart.cons fun q _ h => Bool.false_ne_true h.1
    refine ⟨fun x hx => ?_, ?_⟩
    · rcases List.mem_append.1 hx with hx | hx
      · exact hhead ((Markers.quiet_append m).1 hfront).1 x hx
      · rcases List.mem_cons.1 hx with hx | hx
        · cases hx
        · exact htexts x hx
    · cases head with
      | nil => exact htoken
      | cons c x =>
        refine htoken.cons fun q hq h => ?_
        cases hq
        exact Bool.false_ne_true h.2

theorem tokenize (hm : m.Valid) (text : Text) : Tidy m (tokenize m text).pieces := by
  obtain ⟨next, ahead, head, tail, hpieces, hs, -⟩ := standalone_tokenize hm text
  rw [hpieces]
  exact of_scan hm hs

end Tidy

/-! ## Levels -/

/-- The texts of a template have no markup and do not stand next to each other. -/
structure Template.Unmarked (m : Markers) (t : Template) : Prop where
  texts : ∀ x, .text x ∈ t.parts → x.Unmarked m
  apart : ∀ before x y after, t.parts ≠ before ++ .text x :: .text y :: after

namespace Template.Unmarked

variable {stamp : Stamp} {parts : List Part}

theorem nil : Unmarked m ⟨stamp, []⟩ := ⟨nofun, by simp⟩

theorem text_cons (h : Unmarked m ⟨stamp, parts⟩) (hx : x.Unmarked m)
    (hnext : ∀ y after, parts ≠ .text y :: after) : Unmarked m ⟨stamp, .text x :: parts⟩ where
  texts := by
    intro y hy
    rcases List.mem_cons.1 hy with hy | hy
    · cases hy
      exact hx
    · exact h.texts y hy
  apart := by
    intro before y z after he
    cases before with
    | nil => exact hnext z after (List.cons.inj he).2
    | cons p before => exact h.apart before y z after (List.cons.inj he).2

theorem cons {p : Part} (h : Unmarked m ⟨stamp, parts⟩) (hp : ∀ y, p ≠ .text y) :
    Unmarked m ⟨stamp, p :: parts⟩ where
  texts := by
    intro y hy
    rcases List.mem_cons.1 hy with hy | hy
    · exact absurd hy.symm (hp y)
    · exact h.texts y hy
  apart := by
    intro before y z after he
    cases before with
    | nil => exact hp y (List.cons.inj he).1
    | cons q before => exact h.apart before y z after (List.cons.inj he).2

end Template.Unmarked

/-- An inline template of a level is in its first part or behind it. -/
theorem Template.Inlines.cons_cases {stamp : Stamp} {p : Part} {parts : List Part} {c : Template}
    (h : (Template.mk stamp (p :: parts)).Inlines c) :
    (∃ name opener closer s body, p = .nested name (.inline opener closer) s body ∧
      (c = ⟨s, body⟩ ∨ (Template.mk s body).Inlines c)) ∨ (Template.mk stamp parts).Inlines c := by
  -- A nested template of the level is its first part or one of the others.
  have hmem : ∀ {n : Nested}, n ∈ (Template.mk stamp (p :: parts)).nestedList →
      p = .nested n.name n.form n.template.stamp n.template.parts ∨
        n ∈ (Template.mk stamp parts).nestedList := by
    intro n hn
    obtain ⟨q, hq, he⟩ := List.mem_filterMap.1 hn
    rcases List.mem_cons.1 hq with rfl | hq
    · cases q with
      | text => cases he
      | var => cases he
      | nested =>
        cases he
        exact .inl rfl
    · exact .inr (List.mem_filterMap.2 ⟨q, hq, he⟩)
  cases h with
  | @here _ n opener closer hn hform =>
    rcases hmem hn with rfl | hn
    · exact .inl ⟨n.name, opener, closer, _, _, by rw [hform], .inl rfl⟩
    · exact .inr (.here hn hform)
  | @inside _ _ n opener closer hn hform hc =>
    rcases hmem hn with rfl | hn
    · exact .inl ⟨n.name, opener, closer, _, _, by rw [hform], .inr hc⟩
    · exact .inr (.inside hn hform hc)

/-- The level and all inline templates in it have no markup in their texts. -/
def Part.Unmarked (m : Markers) (parts : List Part) : Prop :=
  ∀ stamp c, c = ⟨stamp, parts⟩ ∨ (Template.mk stamp parts).Inlines c → c.Unmarked m

namespace Parsing

/-- **No markup is left in the texts of a level with tidy pieces**, nor in those of its inline
templates; and it begins with a text only if the pieces do. -/
theorem Ensures.level_unmarked (d : Draft) (load : Text → Nat → Parsing Template)
    (names : LevelNames) (pieces : List Piece) (h : Tidy m pieces) :
    Ensures (fun _ => True) (level d load names pieces) fun parts =>
      Part.Unmarked m parts ∧
        ∀ x after, parts = .text x :: after → ∃ rest, pieces = .text x :: rest := by
  induction names, pieces using level_induction with
  | nil names =>
    rw [level_nil]
    refine .pure ⟨fun stamp c hc => ?_, nofun⟩
    rcases hc with rfl | hc
    · exact .nil
    · cases hc with
      | here hn => cases hn
      | inside hn => cases hn
  | text names content rest ih =>
    rw [level_text]
    refine .bind (ih h.tail) fun tail ht => .pure ⟨fun stamp c hc => ?_, ?_⟩
    · rcases hc with rfl | hc
      · refine (ht.1 stamp _ (.inl rfl)).text_cons (h.texts content List.mem_cons_self) ?_
        intro y after he
        obtain ⟨rest', rfl⟩ := ht.2 y after he
        exact (List.isChain_cons_cons.1 h.apart).1 ⟨rfl, rfl⟩
      · rcases hc.cons_cases with ⟨_, _, _, _, _, he, -⟩ | hc
        · cases he
        · exact ht.1 stamp c (.inr hc)
    · intro x after he
      cases he
      exact ⟨rest, rfl⟩
  | fault names t rest f hj =>
    rw [level_token, hj]
    exact .throw _
  | var names t rest kind name hj ih =>
    rw [level_token, hj]
    refine .bind (ih h.tail) fun tail ht => .pure ⟨fun stamp c hc => ?_, nofun⟩
    rcases hc with rfl | hc
    · exact (ht.1 stamp _ (.inl rfl)).cons nofun
    · rcases hc.cons_cases with ⟨_, _, _, _, _, he, -⟩ | hc
      · cases he
      · exact ht.1 stamp c (.inr hc)
  | opens names t rest name inner c after hj ih₁ ih₂ =>
    rw [level_token, hj]
    obtain ⟨-, -, hs, -⟩ := LevelNames.judge_opens hj
    obtain ⟨rfl, -⟩ := splitEnd_eq_some hs
    have hinner : Tidy m inner := h.tail.of_infix (List.prefix_append _ _).isInfix
    have hafter : Tidy m after :=
      h.tail.of_infix ((List.suffix_cons _ _).isInfix.trans (List.suffix_append _ _).isInfix)
    refine .bind (ih₁ hinner) fun body hb => .freshStamp_bind fun serial =>
      .bind (ih₂ hafter) fun tail ht => .pure ⟨fun stamp c' hc => ?_, nofun⟩
    rcases hc with rfl | hc
    · exact (ht.1 stamp _ (.inl rfl)).cons nofun
    · rcases hc.cons_cases with ⟨_, _, _, s, body', he, hc⟩ | hc
      · cases he
        exact hb.1 _ c' hc
      · exact ht.1 stamp c' (.inr hc)
  | includes names t rest name path hj ih =>
    rw [level_token, hj]
    refine .bind (.trivial _) fun template _ => .bind (ih h.tail) fun tail ht =>
      .pure ⟨fun stamp c hc => ?_, nofun⟩
    rcases hc with rfl | hc
    · exact (ht.1 stamp _ (.inl rfl)).cons nofun
    · rcases hc.cons_cases with ⟨_, _, _, _, _, he, -⟩ | hc
      · cases he
      · exact ht.1 stamp c (.inr hc)

end Parsing

/-- **What the pass takes is no stray opener and no tag of an unknown kind.** -/
theorem Pass.Steps.kind_ne {load : Text → Nat → Parsing Template} {s s' : Pass}
    {pieces : List Piece} (h : Pass.Steps load s pieces s') {t : Token}
    (ht : .token t ∈ pieces) : t.kind ≠ .stray ∧ ∀ keyword, t.kind ≠ .unknown keyword := by
  induction h with
  | nil => cases ht
  | cons h _ ih =>
    rcases List.mem_cons.1 ht with rfl | ht
    · cases h with
      | var hk => simp [hk]
      | opens hk => simp [hk]
      | closes hk => simp [hk]
      | includes hk => simp [hk]
    · exact ih ht

/-! ## Sources -/

namespace Parser

variable {p : Parser} {load : Draft → Text → Nat → Parsing Template} {b : Bench} {t : Template}

/-- A source that parses has a draft, and the template has the parts of its level. -/
theorem parseWith_ok {id : Option SourceId} {source : Text} {b' : Bench}
    (h : (p.parseWith load id source).on b = (.ok t, b')) :
    ∃ d, d.text = evenSegments (Text.splitOn p.markers.ditch source) ∧
      (level d (load d) .empty (tokenize p.markers d.text).pieces).on (b.1, b.2 + 1) =
        (.ok t.parts, b') := by
  cases hd : Draft.ofSource p.markers.ditch (Stamp.mk b.2 id).origin source with
  | error e =>
    rw [on_parseWith_error _ hd] at h
    cases h
  | ok d =>
    rw [on_parseWith_ok _ hd] at h
    obtain ⟨parts, b₁, hparts, ht⟩ := Parsing.of_on_bind_ok h
    cases ht
    exact ⟨d, Draft.text_of_ofSource hd, hparts⟩

/-- **No markup is left in texts.** If a source parses, whatever its includes lead to, no text of
the template or of an inline template in it is empty, has a tag opener in it, or has a variable
opener with a closer behind it in one line; and no two texts stand next to each other. What begins
like a tag or like a variable in the source, outside ditch blocks, begins in a token itself, and
that is a variable or a tag of a known kind. -/
theorem parseWith_unmarked (hm : p.markers.Valid) (load : Draft → Text → Nat → Parsing Template)
    (id : Option SourceId) (source : Text) (h : ((p.parseWith load id source).on b).1 = .ok t) :
    (∀ c, c = t ∨ t.Inlines c → c.Unmarked p.markers) ∧
      ∀ segments a y, CutAt p.markers.ditch source segments → evenSegments segments = a ++ y →
        Markup p.markers y → ∃ before tok rest,
          (tokenize p.markers (evenSegments segments)).pieces = before ++ .token tok :: rest ∧
            (before.flatMap Piece.raw ++ tok.lead).length ≤ a.length ∧
            a.length < (before.flatMap Piece.raw ++ tok.lead ++ tok.body).length ∧
            tok.kind ≠ .stray ∧ ∀ keyword, tok.kind ≠ .unknown keyword := by
  have hrun : (p.parseWith load id source).on b = (.ok t, _) := Prod.ext h rfl
  obtain ⟨d, htext, hparts⟩ := parseWith_ok hrun
  constructor
  · intro c hc
    have hlevel := Parsing.Ensures.level_unmarked d (load d) .empty _
      (Tidy.tokenize hm d.text) (b.1, b.2 + 1) True.intro
    exact (hlevel.1 t.parts (congrArg Prod.fst hparts)).1 t.stamp c hc
  · intro segments a y hcut hsplit hy
    have hsegments : evenSegments segments = d.text := by
      rw [htext]
      exact congrArg evenSegments (hcut.unique (.splitOn (hm.get_ne_nil .ditch) source))
    obtain ⟨before, tok, rest, hpieces, hle, hlt⟩ := tokenize_markup hm hsplit hy
    obtain ⟨s, hsteps, -⟩ := Pass.level_ok_iff.1 hparts
    rw [← hsegments, hpieces] at hsteps
    have hkind := hsteps.kind_ne (List.mem_append_right before List.mem_cons_self)
    exact ⟨before, tok, rest, hpieces, hle, hlt, hkind⟩

/-- Characters of openers and closers in the texts of two levels. -/
def looseEnds : Template :=
  ⟨⟨1, none⟩, [.text "50~".toList, .nested ['r'] (.inline "~%%begin:r%".toList "~%%end:r%".toList)
    ⟨2, none⟩ [.text "~ %".toList]]⟩

theorem parseWith_unmarked_looseEnds :
    Markers.standard.Valid ∧
      ((parseText ⟨.standard, .none, true⟩ "50~~%%begin:r%~ %~%%end:r%".toList).on
        (.ofCapacity 0)).1 = .ok looseEnds ∧
      looseEnds.Unmarked .standard ∧
      Template.Unmarked .standard ⟨⟨2, none⟩, [.text "~ %".toList]⟩ := by
  have hp : (tokenize .standard "50~~%%begin:r%~ %~%%end:r%".toList).pieces =
      [.text "50~".toList, .token ⟨.opens ['r'], 3, "~%%begin:r%".toList, [], []⟩,
        .text "~ %".toList, .token ⟨.closes ['r'], 17, "~%%end:r%".toList, [], []⟩] := by
    decide
  have hd : Draft.ofSource Markers.standard.ditch (Stamp.origin ⟨1, none⟩)
      "50~~%%begin:r%~ %~%%end:r%".toList = .ok ⟨Stamp.origin ⟨1, none⟩,
        "50~~%%begin:r%~ %~%%end:r%".toList, "50~~%%begin:r%~ %~%%end:r%".toList, []⟩ := rfl
  have hj : LevelNames.empty.judge ⟨.opens ['r'], 3, "~%%begin:r%".toList, [], []⟩
      [.text "~ %".toList, .token ⟨.closes ['r'], 17, "~%%end:r%".toList, [], []⟩] =
      .opens ['r'] [.text "~ %".toList] ⟨.closes ['r'], 17, "~%%end:r%".toList, [], []⟩ [] := rfl
  have h : ((parseText ⟨.standard, .none, true⟩ "50~~%%begin:r%~ %~%%end:r%".toList).on
      (.ofCapacity 0)).1 = .ok looseEnds := by
    unfold parseText
    rw [on_parseWith_ok _ hd]
    dsimp only
    rw [hp, level_text, level_token, hj]
    dsimp only
    rw [level_text, level_nil, level_nil]
    rfl
  have hclean := (parseWith_unmarked (p := ⟨.standard, .none, true⟩) Markers.valid_standard
    (loadFromTop ⟨.standard, .none, true⟩) none "50~~%%begin:r%~ %~%%end:r%".toList h).1
  exact ⟨Markers.valid_standard, h, hclean _ (.inl rfl), hclean _ (.inr
    (.here (n := ⟨['r'], _, ⟨⟨2, none⟩, _⟩⟩) List.mem_cons_self rfl))⟩

end Parser

end Stencil
