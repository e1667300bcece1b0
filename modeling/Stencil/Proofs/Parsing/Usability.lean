import Stencil.Proofs.Parsing.Adjacent

/-!
# What valid markers can be used for

**Names of letters.** With valid markers, a variable of such a name is read as that variable, and two
tags around nothing as an empty template, if their texts are clear (`Markers.ClearVariable`,
`Markers.ClearTags`): no ditch word occurs in them, the closer is first found behind the name, and
the variable opener is not taken for a tag.

**What validity leaves open** (`Parser.parseText_unclear`). Markers can be valid and yet not clear
for a name in which none of them occurs: a closer may begin in the name and end in itself, a ditch
word may reach over the end of the name, and one opener may begin the other one.
-/

namespace Stencil

/-- A name that ends in no part of the closer is closed by the closer behind it. -/
theorem closedBy?_append {closer x : Text} (hbreak : ∀ c ∈ x, Text.isBreak c = false)
    (h : ¬ closer <:+: x ++ closer.dropLast) (v : Text) :
    closedBy? closer (x ++ (closer ++ v)) = some x := by
  induction x with
  | nil => exact closedBy?_of_beginsWith (Text.beginsWith_iff.2 ⟨v, rfl⟩)
  | cons c x ih =>
    have hlater : ¬ closer <:+: x ++ closer.dropLast := by
      intro hin
      exact h (hin.trans (List.suffix_cons c _).isInfix)
    -- A closer that begins at the name ends before the last character of the closer behind it.
    have hopen : ¬ Text.beginsWith closer (c :: (x ++ (closer ++ v))) = true := by
      intro hbegins
      obtain ⟨r, hr⟩ := Text.beginsWith_iff.1 hbegins
      have hfront : c :: (x ++ closer.dropLast) <+: c :: (x ++ (closer ++ v)) := by
        refine List.cons_prefix_cons.2 ⟨rfl, (List.prefix_append_right_inj x).2 ?_⟩
        exact closer.dropLast_prefix.trans (List.prefix_append closer v)
      refine h (List.prefix_of_prefix_length_le ⟨r, hr.symm⟩ hfront ?_).isInfix
      rw [List.length_cons, List.length_append, List.length_dropLast]
      omega
    rw [List.cons_append, closedBy?, if_neg hopen, hbreak c List.mem_cons_self,
      if_neg Bool.false_ne_true, ih (fun d hd => hbreak d (List.mem_cons_of_mem _ hd)) hlater]
    rfl

/-- No letter breaks a line or is a colon. -/
theorem forall_letters {name : Text} (h : ∀ c ∈ name, c.isAlpha = true) :
    (∀ c ∈ name, Text.isBreak c = false) ∧ ':' ∉ name := by
  constructor
  · intro c hc
    rw [← Bool.not_eq_true]
    intro hbreak
    rcases Bool.or_eq_true_iff.1 hbreak with hr | hn
    · rw [beq_iff_eq.1 hr] at hc
      exact absurd (h _ hc) (by decide)
    · rw [beq_iff_eq.1 hn] at hc
      exact absurd (h _ hc) (by decide)
  · exact fun hc => absurd (h _ hc) (by decide)

namespace Markers

/-- The two tags of an inline template, with nothing between them. -/
def emptyText (m : Markers) (name : Text) : Text := m.beginText name ++ m.endText name

/-- Nothing stands in the way of a variable of that name. -/
structure ClearVariable (m : Markers) (name : Text) : Prop where
  /-- The text is not cut. -/
  noDitch : ¬ m.ditch <:+: m.variableText name
  /-- The variable does not end before the closer behind its name. -/
  closed : ¬ m.varEnd <:+: name ++ m.varEnd.dropLast
  /-- The tag opener does not reach over the end of the variable opener. -/
  opened : m.tagStart <+: m.variableText name → m.tagStart <+: m.varStart
  /-- The text is not a tag as well. -/
  noTag : m.tag? (m.variableText name) = none

/-- Nothing stands in the way of the tags of an empty template of that name. -/
structure ClearTags (m : Markers) (name : Text) : Prop where
  /-- The text is not cut. -/
  noDitch : ¬ m.ditch <:+: m.emptyText name
  /-- The tags do not end before the closer behind the name. -/
  closed : ¬ m.tagEnd <:+: name ++ m.tagEnd.dropLast

variable {m : Markers} {name : Text}

theorem ClearVariable.token? (h : m.ClearVariable name)
    (hletters : ∀ c ∈ name, c.isAlpha = true) :
    m.token? (m.variableText name) = some (.var name, m.variableText name) := by
  have hclosed := closedBy?_append (forall_letters hletters).1 h.closed []
  rw [List.append_nil] at hclosed
  have hvar : m.var? (m.variableText name) = some (.var name, m.variableText name) :=
    var?_eq_some_iff.2 ⟨name, name ++ m.varEnd, rfl, hclosed, rfl, rfl⟩
  unfold Markers.token?
  by_cases hnested : Text.beginsWith m.tagStart m.varStart = true
  · rw [if_pos hnested, h.noTag, hvar]
    rfl
  · have hstray : m.stray? (m.variableText name) = none := by
      refine if_neg fun hbegins => hnested ?_
      obtain ⟨r, hr⟩ := Text.beginsWith_iff.1 hbegins
      obtain ⟨s, hs⟩ := h.opened ⟨r, hr.symm⟩
      exact Text.beginsWith_iff.2 ⟨s, hs.symm⟩
    rw [if_neg hnested, h.noTag, hstray, hvar]
    rfl

/-- A tag with a name of letters is read whatever stands behind it. -/
theorem ClearTags.token? (h : m.ClearTags name) (hletters : ∀ c ∈ name, c.isAlpha = true)
    (keyword : Text) (hne : keyword ≠ []) (hword : ∀ c ∈ keyword, isKeyword c = true) (v : Text) :
    m.token? (m.tagText keyword name ++ v) =
      some (.ofTag keyword name, m.tagText keyword name) := by
  have hclosed := closedBy?_append (forall_letters hletters).1 h.closed v
  have htag : m.tag? (m.tagText keyword name ++ v) =
      some (.ofTag keyword name, m.tagText keyword name) :=
    tag?_eq_some_iff.2 ⟨keyword, name, name ++ (m.tagEnd ++ v), hne, hword, by simp [tagText],
      hclosed, rfl, rfl⟩
  unfold Markers.token?
  rw [htag]
  split <;> rfl

/-- **With the standard markers every name of letters is clear.** -/
theorem clear_standard (hname : name ≠ []) (hletters : ∀ c ∈ name, c.isAlpha = true) :
    standard.ClearVariable name ∧ standard.ClearTags name := by
  have hnot : ∀ c : Char, c.isAlpha = false → c ∉ name := by
    intro c hc hmem
    rw [hletters c hmem] at hc
    cases hc
  have hopen : ¬ standard.tagStart <+: standard.variableText name := by
    rintro ⟨r, hr⟩
    cases name with
    | nil => exact hname rfl
    | cons c name =>
      have hc : '%' = c := (List.cons.inj (List.cons.inj (List.cons.inj hr).2).2).1
      exact hnot '%' (by decide) (hc ▸ List.mem_cons_self)
  have hclosed : ¬ ['%'] <:+: name ++ [] := by
    intro hin
    rw [List.append_nil] at hin
    exact hnot '%' (by decide) (hin.subset List.mem_cons_self)
  have hditch : ∀ text : Text, '<' ∉ text → ¬ standard.ditch <:+: text :=
    fun text htext hin => htext (hin.subset List.mem_cons_self)
  have hangle := hnot '<' (by decide)
  refine ⟨⟨hditch _ ?_, hclosed, fun h => absurd h hopen, ?_⟩, ⟨hditch _ ?_, hclosed⟩⟩
  · simp [variableText, standard, hangle]
  · rw [Option.eq_none_iff_forall_ne_some]
    rintro ⟨kind, body⟩ htag
    obtain ⟨keyword, arg, r, -, -, ht, -⟩ := tag?_eq_some_iff.1 htag
    exact hopen ⟨_, ht.symm⟩
  · simp [emptyText, beginText, endText, tagText, standard, hangle]

end Markers

namespace Parser

open Markers

/-- **Valid markers can be used** for every name of letters that is clear. A variable of that name is
parsed to itself, and two tags to an empty template, with every resolver and every cache. -/
theorem parseText_clear {m : Markers} (hm : m.Valid) {name : Text} (hname : name ≠ [])
    (hletters : ∀ c ∈ name, c.isAlpha = true) (resolver : Resolver) (caching : Bool) (b : Bench) :
    (m.ClearVariable name →
      ((parseText ⟨m, resolver, caching⟩ (m.variableText name)).on b).1 =
        .ok ⟨⟨b.2, none⟩, [.var name .unspecified (m.variableText name)]⟩) ∧
    (m.ClearTags name →
      ((parseText ⟨m, resolver, caching⟩ (m.emptyText name)).on b).1 =
        .ok ⟨⟨b.2, none⟩, [.nested name (.inline (m.beginText name) (m.endText name))
          ⟨b.2 + 1, none⟩ []]⟩) := by
  constructor
  · intro h
    have hread : readVariable (Item.varBody .unspecified name) = .ok (.unspecified, name) :=
      Item.readVariable_varBody fun _ => (forall_letters hletters).2
    exact parseText_variable hm (h.token? hletters) h.noDitch hread hname b
  · intro h
    have hend := h.token? hletters ['e', 'n', 'd'] (by decide) (List.all_eq_true.1 rfl) []
    have hbegin := h.token? hletters ['b', 'e', 'g', 'i', 'n'] (by decide)
      (List.all_eq_true.1 rfl) (bodies [(.closes name, m.endText name)])
    have hadjacent : Adjacent m [(.opens name, m.beginText name), (.closes name, m.endText name)] :=
      ⟨hbegin, hend, trivial⟩
    have htext : bodies [(.opens name, m.beginText name), (.closes name, m.endText name)] =
        m.emptyText name := by
      rw [bodies_cons, bodies_singleton]
      rfl
    have hditch := h.noDitch
    rw [← htext] at hditch ⊢
    exact parseText_inline [] [] hm hadjacent hditch hname (fun _ he => nomatch he)
      (fun d load pos b => congrArg (Parsing.on · b) level_nil) b

/-- The standard markers can be used for a name. -/
theorem parseText_clear_row : Markers.standard.Valid ∧
    ((parseText ⟨.standard, .none, true⟩ "~%row%".toList).on (.ofCapacity 0)).1 =
      .ok ⟨⟨1, none⟩, [.var "row".toList .unspecified "~%row%".toList]⟩ ∧
    ((parseText ⟨.standard, .none, true⟩ "~%%begin:row%~%%end:row%".toList).on (.ofCapacity 0)).1 =
      .ok ⟨⟨1, none⟩, [.nested "row".toList
        (.inline "~%%begin:row%".toList "~%%end:row%".toList) ⟨2, none⟩ []]⟩ := by
  have hletters : ∀ c ∈ "row".toList, c.isAlpha = true := List.all_eq_true.1 rfl
  obtain ⟨hvar, htags⟩ := clear_standard (by decide) hletters
  obtain ⟨hvariable, hempty⟩ := parseText_clear Markers.valid_standard (by decide) hletters .none true
    (.ofCapacity 0)
  exact ⟨Markers.valid_standard, hvariable hvar, hempty htags⟩

/-! ## What validity leaves open -/

/-- The text of a variable is parsed to a variable of that name and nothing else. -/
def ReadsVariable (m : Markers) (name : Text) : Prop :=
  ∃ t kind raw, ((parseText ⟨m, .none, false⟩ (m.variableText name)).on (.ofCapacity 0)).1 = .ok t ∧
    t.parts = [.var name kind raw]

/-- The text of two tags is parsed to an empty inline template of that name and nothing else. -/
def ReadsEmpty (m : Markers) (name : Text) : Prop :=
  ∃ t form stamp, ((parseText ⟨m, .none, false⟩ (m.emptyText name)).on (.ofCapacity 0)).1 = .ok t ∧
    t.parts = [.nested name form stamp []]

/-- The name has letters only, and no marker occurs in it. -/
structure PlainName (m : Markers) (name : Text) : Prop where
  nonempty : name ≠ []
  letters : ∀ c ∈ name, c.isAlpha = true
  noMarker : ∀ role ∈ MarkerRole.all, ¬ m.get role <:+: name

/-- Closers that can begin in a name. -/
def overlapping : Markers := { Markers.standard with varEnd := ['a', 'a'], tagEnd := ['a', 'a'] }

/-- A ditch word that can begin in a name. -/
def straddling : Markers := { Markers.standard with ditch := ['n', '%'] }

/-- A tag opener that goes on with a letter where the variable opener ends. -/
def lettered : Markers := { Markers.standard with varStart := ['~'], tagStart := ['~', 'a'] }

/-- A variable opener that begins like a tag. -/
def tagLike : Markers := { Markers.standard with varStart := ['~', 'a', ':'], tagStart := ['~'] }

/-- The first part is what the first token comes to. -/
def HeadedBy (t : Token) : Verdict → List Part → Prop
  | .fault _, _ => False
  | .var kind name, parts => ∃ tail, parts = .var name kind t.raw :: tail
  | .opens name _ c _, parts =>
    ∃ stamp body tail, parts = .nested name (.inline t.raw c.raw) stamp body :: tail
  | .includes name path, parts =>
    ∃ stamp body tail, parts = .nested name (.included path t.raw) stamp body :: tail

/-- **A text that begins with a token** is parsed to a template that begins with its part. -/
theorem parts_headedBy {p : Parser} {source : Text} {d : Draft} {t : Token} {rest : List Piece}
    {b : Bench} {template : Template}
    (hd : Draft.ofSource p.markers.ditch (Stamp.mk b.2 none).origin source = .ok d)
    (hpieces : (tokenize p.markers d.text).pieces = .token t :: rest)
    (h : ((p.parseText source).on b).1 = .ok template) :
    HeadedBy t (LevelNames.empty.judge t rest) template.parts := by
  unfold parseText at h
  rw [on_parseWith_ok _ hd, hpieces, level_token] at h
  obtain ⟨parts, b', hparts, hpure⟩ := Parsing.of_on_bind_ok (Prod.ext h rfl)
  cases hpure
  cases hv : LevelNames.empty.judge t rest with
  | fault f =>
    rw [hv] at hparts
    cases hparts
  | var kind name =>
    rw [hv] at hparts
    obtain ⟨tail, b₁, -, hparts⟩ := Parsing.of_on_bind_ok hparts
    cases hparts
    exact ⟨tail, rfl⟩
  | opens name inner c after =>
    rw [hv] at hparts
    obtain ⟨body, b₁, -, hparts⟩ := Parsing.of_on_bind_ok hparts
    obtain ⟨stamp, b₂, -, hparts⟩ := Parsing.of_on_bind_ok hparts
    obtain ⟨tail, b₃, -, hparts⟩ := Parsing.of_on_bind_ok hparts
    cases hparts
    exact ⟨stamp, body, tail, rfl⟩
  | includes name path =>
    rw [hv] at hparts
    obtain ⟨template, b₁, -, hparts⟩ := Parsing.of_on_bind_ok hparts
    obtain ⟨tail, b₂, -, hparts⟩ := Parsing.of_on_bind_ok hparts
    cases hparts
    exact ⟨template.stamp, template.parts, tail, rfl⟩

/-- A text that is parsed to a variable begins with a token that comes to it. -/
theorem ReadsVariable.headedBy {m : Markers} {name : Text} {t : Token} {rest : List Piece}
    (h : ReadsVariable m name) (hditch : ¬ m.ditch <:+: m.variableText name)
    (hpieces : (tokenize m (m.variableText name)).pieces = .token t :: rest) :
    ∃ kind raw, HeadedBy t (LevelNames.empty.judge t rest) [.var name kind raw] := by
  obtain ⟨template, kind, raw, ht, hparts⟩ := h
  have hhead := parts_headedBy (p := ⟨m, .none, false⟩) (Draft.ofSource_whole hditch none 1) hpieces ht
  rw [hparts] at hhead
  exact ⟨kind, raw, hhead⟩

/-- Two tags that are parsed to a template begin with a token that comes to it. -/
theorem ReadsEmpty.headedBy {m : Markers} {name : Text} {d : Draft} {t : Token} {rest : List Piece}
    (h : ReadsEmpty m name)
    (hd : Draft.ofSource m.ditch (Stamp.mk 1 none).origin (m.emptyText name) = .ok d)
    (hpieces : (tokenize m d.text).pieces = .token t :: rest) :
    ∃ form stamp, HeadedBy t (LevelNames.empty.judge t rest) [.nested name form stamp []] := by
  obtain ⟨template, form, stamp, ht, hparts⟩ := h
  have hhead := parts_headedBy (p := ⟨m, .none, false⟩) hd hpieces ht
  rw [hparts] at hhead
  exact ⟨form, stamp, hhead⟩

/-- **Valid markers that are not clear.** No marker occurs in any of these names. -/
theorem parseText_unclear :
    (overlapping.Valid ∧ PlainName overlapping ['x', 'a'] ∧
      ¬ ReadsVariable overlapping ['x', 'a'] ∧ ¬ ReadsEmpty overlapping ['x', 'a']) ∧
    (straddling.Valid ∧ PlainName straddling ['n'] ∧
      ¬ ReadsVariable straddling ['n'] ∧ ¬ ReadsEmpty straddling ['n']) ∧
    (lettered.Valid ∧ PlainName lettered ['a', 'b'] ∧ ¬ ReadsVariable lettered ['a', 'b']) ∧
    (tagLike.Valid ∧ PlainName tagLike ['b'] ∧ ¬ ReadsVariable tagLike ['b']) := by
  refine ⟨⟨by decide, ⟨by decide, List.all_eq_true.1 rfl, by decide⟩, ?_, ?_⟩,
    ⟨by decide, ⟨by decide, List.all_eq_true.1 rfl, by decide⟩, ?_, ?_⟩,
    ⟨by decide, ⟨by decide, List.all_eq_true.1 rfl, by decide⟩, ?_⟩,
    ⟨by decide, ⟨by decide, List.all_eq_true.1 rfl, by decide⟩, ?_⟩⟩
  · intro h
    -- The variable is closed one character early.
    have hpieces : (tokenize overlapping (overlapping.variableText ['x', 'a'])).pieces =
        [.token ⟨.var ['x'], 0, "~%xaa".toList, [], []⟩, .text ['a']] := by decide
    obtain ⟨kind, raw, tail, htail⟩ := h.headedBy (by decide) hpieces
    cases htail
  · intro h
    have hpieces : (tokenize overlapping (overlapping.emptyText ['x', 'a'])).pieces =
        [.token ⟨.opens ['x'], 0, "~%%begin:xaa".toList, [], []⟩, .text ['a'],
          .token ⟨.closes ['x'], 13, "~%%end:xaa".toList, [], []⟩, .text ['a']] := by decide
    obtain ⟨form, stamp, _, _, tail, htail⟩ :=
      h.headedBy (Draft.ofSource_whole (by decide) none 1) hpieces
    cases htail
  · rintro ⟨t, kind, raw, ht, -⟩
    -- The ditch word at the end of the name has no partner.
    have hstop : StoppedByDitch none (.ofCapacity 0)
        ((parseAs ⟨straddling, .none, false⟩ none (straddling.variableText ['n'])).on
          (.ofCapacity 0)) := stoppedByDitch_of_even (by decide) (.ofCapacity 0)
    obtain ⟨pos, hstop⟩ := hstop
    have hrun := congrArg Prod.fst hstop
    rw [show parseAs _ none _ = parseText _ _ from rfl, ht] at hrun
    cases hrun
  · intro h
    -- What stands from the end of one name to the end of the other one is cut out.
    have hd : Draft.ofSource straddling.ditch (Stamp.mk 1 none).origin
        (straddling.emptyText ['n']) = .ok ⟨(Stamp.mk 1 none).origin, straddling.emptyText ['n'],
          "~%%begin:".toList, [⟨9, 11⟩]⟩ := rfl
    have hpieces : (tokenize straddling "~%%begin:".toList).pieces =
        [.token ⟨.stray, 0, "~%%".toList, [], []⟩, .text "begin:".toList] := by decide
    obtain ⟨form, stamp, hfault⟩ := h.headedBy hd hpieces
    exact hfault
  · intro h
    have hpieces : (tokenize lettered (lettered.variableText ['a', 'b'])).pieces =
        [.token ⟨.stray, 0, ['~', 'a'], [], []⟩, .text ['b', '%']] := by decide
    obtain ⟨kind, raw, hfault⟩ := h.headedBy (by decide) hpieces
    exact hfault
  · intro h
    have hpieces : (tokenize tagLike (tagLike.variableText ['b'])).pieces =
        [.token ⟨.unknown ['a'], 0, "~a:b%".toList, [], []⟩] := by decide
    obtain ⟨kind, raw, hfault⟩ := h.headedBy (by decide) hpieces
    exact hfault

end Parser

end Stencil
