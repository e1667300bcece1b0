import Stencil.Proofs.Markup.Offsets
import Stencil.Proofs.Markup.Places
import Stencil.Proofs.Parsing.Nesting
import Stencil.Proofs.Parsing.Sources

/-!
# Where errors are

**Drafts** (`Draft.ofSource_of_cutAt`). Whether the ditch words of a source come in pairs decides
whether it has a draft. If the last one has no partner, the error is there.

**Tokens** (`Draft.marks_token`). The position of a token in a draft is that of a character of the
source as written: the first one of the token's opener, however many ditch blocks stood before the
token, beside it or inside it.

**Errors** (`Parser.parseWith_error_marks`). An error of a parse is about a construct of the source
itself and has its position, or it is that of a source that the parse came to include. By induction
on the includes every error is about a construct of the source that was given or of one that was
read (`Parser.parseAs_error_located`).
-/

namespace Stencil

/-! ## Drafts -/

/-- The draft of a source that its ditch words cut into these segments. -/
def Draft.ofSegments (ditch : Text) (id : Option SourceId) (source : Text)
    (segments : List Text) : Draft :=
  ⟨(Stamp.mk 0 id).origin, source, evenSegments segments, Ditch.cuts ditch.length 0 segments⟩

variable {ditch source : Text} {segments : List Text}

theorem Draft.ofSource_of_cutAt (id : Option SourceId) (hditch : ditch ≠ [])
    (hcut : CutAt ditch source segments) (hodd : segments.length % 2 = 1) (serial : Nat) :
    Draft.ofSource ditch (Stamp.mk serial id).origin source =
      .ok (.ofSegments ditch id source segments) := by
  have hs := (CutAt.iff_eq_splitOn hditch).1 hcut
  have hstrip : Ditch.strip ditch source =
      .ok (Ditch.kept segments, Ditch.cuts ditch.length 0 segments) := by
    simp [Ditch.strip, ← hs, hodd]
  simp only [Draft.ofSource, hstrip, kept_eq_evenSegments]
  rfl

/-- The source of segments is what is before the last one, the word, and the last one. -/
theorem exists_front (ditch last : Text) {init : List Text} (h : init ≠ []) :
    ∃ front, ((init ++ [last]).intersperse ditch).flatten = front ++ (ditch ++ last) := by
  induction init with
  | nil => exact absurd rfl h
  | cons s init ih =>
    cases init with
    | nil => exact ⟨s, by simp⟩
    | cons r init =>
      obtain ⟨front, hfront⟩ := ih (List.cons_ne_nil r init)
      refine ⟨s ++ (ditch ++ front), ?_⟩
      simp only [List.cons_append, List.intersperse_cons_cons, List.flatten_cons,
        List.append_assoc] at hfront ⊢
      rw [hfront]

/-- **A ditch word without a partner is the last one**, and the error has its position. -/
theorem Draft.ofSource_of_even (id : Option SourceId) (source : Text) (hditch : ditch ≠ [])
    (heven : (Text.splitOn ditch source).length % 2 = 0) (serial : Nat) :
    ∃ init last front, CutAt ditch source (init ++ [last]) ∧ init.length % 2 = 1 ∧
      source = front ++ (ditch ++ last) ∧
      Draft.ofSource ditch (Stamp.mk serial id).origin source =
        .error (.parse ⟨.ditchNotTerminated, (Stamp.mk 0 id).origin,
          Position.of source front.length⟩) := by
  have hcut := CutAt.splitOn hditch source
  have hsource := Text.intersperse_splitOn hditch source
  rcases List.eq_nil_or_concat (Text.splitOn ditch source) with hs | ⟨init, last, hs⟩
  · exact absurd hs (Text.splitOnFrom_ne_nil _ 0 source)
  · have hodd : init.length % 2 = 1 := by
      rw [hs, List.concat_eq_append, List.length_append, List.length_singleton] at heven
      omega
    have hne : init ≠ [] := by
      rintro rfl
      cases hodd
    rw [List.concat_eq_append] at hs
    obtain ⟨front, hfront⟩ := exists_front ditch last hne
    rw [hs, hfront] at hsource
    have hlen : source.length - (last.length + ditch.length) = front.length := by
      rw [← hsource, List.length_append, List.length_append]
      omega
    refine ⟨init, last, front, hs ▸ hcut, hodd, hsource.symm, ?_⟩
    have hstrip : Ditch.strip ditch source = .error front.length := by
      rw [← hlen]
      simp [Ditch.strip, heven]
      simp [hs]
    simp only [Draft.ofSource, hstrip]
    rfl

/-! ## Tokens -/

/-- The opener of a token begins at a character of the source: the one that was kept as the first
behind what stands before the token and the start of its comment. -/
structure OpensAt (m : Markers) (source : Text) (segments : List Text) (before : List Piece)
    (t : Token) (offset : Nat) : Prop where
  kept : (Ditch.outside m.ditch.length 0 segments)[(before.flatMap Piece.raw ++ t.lead).length]? =
    some offset
  opener : m.opener t.kind <+: t.body
  char : source[offset]? = (m.opener t.kind).head?

/-- **The position of a token in a draft is that of the first character of its opener.** -/
theorem Draft.marks_token {m : Markers} (id : Option SourceId) (hm : m.Valid)
    (hcut : CutAt m.ditch source segments) {before rest : List Piece} {t : Token}
    (h : (tokenize m (evenSegments segments)).pieces = before ++ .token t :: rest) :
    ∃ offset, Position.Marks source offset
        ((Draft.ofSegments m.ditch id source segments).position t.pos) ∧
      OpensAt m source segments before t offset := by
  obtain ⟨hpos, ⟨behind, htext⟩, hopener⟩ := tokenize_token hm h
  have hsource : source = (segments.intersperse m.ditch).flatten := by
    rw [(CutAt.iff_eq_splitOn (hm.get_ne_nil .ditch)).1 hcut]
    exact (Text.intersperse_splitOn (hm.get_ne_nil .ditch) source).symm
  rw [← kept_eq_evenSegments] at htext
  have hne := hm.opener_ne_nil t.kind
  -- The character of the draft at the token's place is the opener's first.
  obtain ⟨c, o, ho⟩ := List.exists_cons_of_ne_nil hne
  obtain ⟨body, hbody⟩ := hopener
  have hat : (Ditch.kept segments)[t.pos]? = some c := by
    rw [← htext, ← hbody, ho, hpos]
    simp
  obtain ⟨hlt, -⟩ := List.getElem?_eq_some_iff.1 hat
  have hkept := Ditch.getElem?_outside_eq_written (w := m.ditch.length) hlt
  have hchar := Ditch.getElem?_outside hsource hkept
  rw [hat] at hchar
  obtain ⟨hle, -⟩ := List.getElem?_eq_some_iff.1 hchar
  refine ⟨_, Position.marks_of (Nat.le_of_lt hle), ⟨hpos ▸ hkept, ⟨body, hbody⟩, ?_⟩⟩
  rw [ho]
  exact hchar

/-! ## Errors -/

/-- The token includes a path and is not refused. -/
def Pass.Includes (s : Pass) (t : Token) (path : Text) : Prop :=
  ∃ arg name, t.kind = .includes arg ∧ splitInclude arg = (name, path) ∧ path ≠ [] ∧ name ≠ [] ∧
    s.names.uses name = false

namespace Parser

variable {p : Parser} {inner : SourceId → Parsing Template} {stack : List SourceId} {b b' : Bench}
  {e : ParseError}

/-- What is wrong with a token: it is refused at its place in the pass, or what it includes is not
found or is being read. -/
inductive AtFault (p : Parser) (stack : List SourceId) (s : Pass) (t : Token) (rest : List Piece) :
    Fault → Prop
  | refused {f : Fault} (h : s.Refused t rest f) : AtFault p stack s t rest f
  | nowhere {path : Text} (h : s.Includes t path) (hl : p.locate path = .ok none) :
      AtFault p stack s t rest (.invalidIncludePath path)
  | cycle {path : Text} {i : SourceId} (h : s.Includes t path) (hl : p.locate path = .ok (some i))
      (hi : i ∈ stack) :
      AtFault p stack s t rest (.includeCycle ((stack ++ [i]).map SourceId.text))

/-- The parse of a source comes to a token: its ditch words come in pairs, and the pass over the
pieces of the rest takes and checks all those before the token. -/
structure Reaches (p : Parser) (inner : SourceId → Parsing Template) (stack : List SourceId)
    (id : Option SourceId) (source : Text) (b : Bench) (segments : List Text)
    (before : List Piece) (t : Token) (rest : List Piece) (s : Pass) : Prop where
  cut : CutAt p.markers.ditch source segments
  paired : segments.length % 2 = 1
  pieces : (tokenize p.markers (evenSegments segments)).pieces = before ++ .token t :: rest
  checked : Pass.Checked
    (p.loadIncluded inner stack (.ofSegments p.markers.ditch id source segments))
    (.start (b.1, b.2 + 1)) before (.token t :: rest) s

/-- The construct at fault in a source, and the offset of its first character: the last ditch word
if it has no partner, else the opener of the token that the parse came to. -/
inductive Offends (p : Parser) (inner : SourceId → Parsing Template) (stack : List SourceId)
    (id : Option SourceId) (source : Text) (b : Bench) : Fault → Nat → Prop
  | ditch {init : List Text} {last front : Text}
      (cut : CutAt p.markers.ditch source (init ++ [last])) (odd : init.length % 2 = 1)
      (split : source = front ++ (p.markers.ditch ++ last)) :
      Offends p inner stack id source b .ditchNotTerminated front.length
  | token {segments : List Text} {before rest : List Piece} {t : Token} {s : Pass} {f : Fault}
      {offset : Nat} (reached : p.Reaches inner stack id source b segments before t rest s)
      (fault : p.AtFault stack s t rest f)
      (opens : OpensAt p.markers source segments before t offset) :
      Offends p inner stack id source b f offset

/-- The error is that of a source which the parse came to include. -/
def HandsOn (p : Parser) (inner : SourceId → Parsing Template) (stack : List SourceId)
    (id : Option SourceId) (source : Text) (b : Bench) (e : ParseError) (b' : Bench) : Prop :=
  ∃ segments before t rest s path i, p.Reaches inner stack id source b segments before t rest s ∧
    s.Includes t path ∧ p.locate path = .ok (some i) ∧ i ∉ stack ∧
    (inner i).on s.bench = (.error (.parse e), b')

/-- An include fails at its tag, or in the source that it leads to. -/
theorem loadIncluded_error {d : Draft} {path : Text} {pos : Nat}
    (h : (p.loadIncluded inner stack d path pos).on b = (.error (.parse e), b')) :
    (p.locate path = .ok none ∧ LoadError.parse e = d.error (.invalidIncludePath path) pos) ∨
      ∃ i, p.locate path = .ok (some i) ∧
        (i ∈ stack ∧ LoadError.parse e =
            d.error (.includeCycle ((stack ++ [i]).map SourceId.text)) pos ∨
          i ∉ stack ∧ (inner i).on b = (.error (.parse e), b')) := by
  unfold loadIncluded at h
  cases hl : p.locate path with
  | error f =>
    rw [hl, Parsing.lift_error_bind] at h
    unfold locate at hl
    split at hl
    · cases hl
    · cases hl
      cases h
  | ok i? =>
    rw [hl, Parsing.lift_ok_bind] at h
    cases i? with
    | none =>
      cases h
      exact .inl ⟨rfl, rfl⟩
    | some i =>
      refine .inr ⟨i, rfl, ?_⟩
      dsimp only at h
      by_cases hi : i ∈ stack
      · rw [if_pos (List.contains_iff_mem.2 hi)] at h
        cases h
        exact .inl ⟨hi, rfl⟩
      · rw [if_neg (mt List.contains_iff_mem.1 hi)] at h
        exact .inr ⟨hi, h⟩

theorem handsOn_or_offends (hm : p.markers.Valid) (id : Option SourceId) (source : Text)
    (h : (p.parseWith (p.loadIncluded inner stack) id source).on b = (.error (.parse e), b')) :
    p.HandsOn inner stack id source b e b' ∨
      e.origin = (Stamp.mk 0 id).origin ∧ ∃ offset, Position.Marks source offset e.position ∧
        p.Offends inner stack id source b e.fault offset := by
  have hditch : p.markers.ditch ≠ [] := hm.get_ne_nil .ditch
  by_cases hodd : (Text.splitOn p.markers.ditch source).length % 2 = 1
  · have hcut := CutAt.splitOn hditch source
    rw [on_parseWith_ok _ (Draft.ofSource_of_cutAt id hditch hcut hodd b.2)] at h
    rcases Parsing.of_on_bind_error h with h | ⟨parts, b₁, -, h⟩
    · obtain ⟨before, t, rest, s, hpieces, hchecked, hfails⟩ := Pass.firstFailure_of_level_error h
      have hreached : p.Reaches inner stack id source b _ before t rest s :=
        ⟨hcut, hodd, hpieces, hchecked⟩
      -- A fault of the token has the token's position.
      have hown : ∀ f, p.AtFault stack s t rest f → LoadError.parse e =
          (Draft.ofSegments p.markers.ditch id source (Text.splitOn p.markers.ditch source)).error
            f t.pos →
          e.origin = (Stamp.mk 0 id).origin ∧ ∃ offset, Position.Marks source offset e.position ∧
            p.Offends inner stack id source b e.fault offset := by
        intro f hf he
        cases he
        obtain ⟨offset, hmarks, hopens⟩ := Draft.marks_token id hm hcut hpieces
        exact ⟨rfl, offset, hmarks, .token hreached hf hopens⟩
      generalize he : LoadError.parse e = err at hfails
      cases hfails with
      | refused hf => exact .inr (hown _ (.refused hf) he)
      | @includes arg name path err b' hk hs hp hn hu hl =>
        subst he
        have hincludes : s.Includes t path := ⟨arg, name, hk, hs, hp, hn, hu⟩
        rcases loadIncluded_error hl with ⟨hl, he⟩ | ⟨i, hl, ⟨hi, he⟩ | ⟨hi, hinner⟩⟩
        · exact .inr (hown _ (.nowhere hincludes hl) he)
        · exact .inr (hown _ (.cycle hincludes hl hi) he)
        · exact .inl ⟨_, before, t, rest, s, path, i, hreached, hincludes, hl, hi, hinner⟩
    · cases h
  · obtain ⟨init, last, front, hcut, hinit, hsplit, hd⟩ :=
      Draft.ofSource_of_even id source hditch (by omega) b.2
    rw [on_parseWith_error _ hd] at h
    cases h
    refine .inr ⟨rfl, front.length, Position.marks_of ?_, .ditch hcut hinit hsplit⟩
    have hlen := congrArg List.length hsplit
    rw [List.length_append] at hlen
    omega

/-- **Errors are where the source as written has what is wrong.** If a parse fails with an error,
whatever its includes lead to, then either it is the error of a source that it came to include, or
its origin is that of the source and its position is that of a character of the source: of the
first one of the last ditch word, which has no partner, or of the first one of the opener of the
token at fault. Positions of different characters differ and come in the order of the characters.
-/
theorem parseWith_error_marks (hm : p.markers.Valid) (inner : SourceId → Parsing Template)
    (stack : List SourceId) (id : Option SourceId) (source : Text)
    (h : (p.parseWith (p.loadIncluded inner stack) id source).on b = (.error (.parse e), b')) :
    (p.HandsOn inner stack id source b e b' ∨
      e.origin = (Stamp.mk 0 id).origin ∧ ∃ offset, Position.Marks source offset e.position ∧
        p.Offends inner stack id source b e.fault offset) ∧
    ∀ i j x y, Position.Marks source i x → Position.Marks source j y →
      (x = y ↔ i = j) ∧ (x.Before y ↔ i < j) :=
  ⟨handsOn_or_offends hm id source h, fun _ _ _ _ hx hy => ⟨hx.eq_iff hy, hx.before_iff hy⟩⟩

/-- A tag in a comment, cut by a ditch block, behind another block in the second line. -/
theorem parseWith_error_marks_comment :
    Markers.standard.Valid ∧
      ((parseText ⟨.standard, .none, true⟩
          "é\n<!--%%-->x<!--%%--><!-- ~%<!--%%-->y<!--%%-->%q:a% -->".toList).on (.ofCapacity 0)) =
        (.error (.parse ⟨.unknownTag ['q'], "<string>".toList, ⟨2, 25⟩⟩), (.ofCapacity 0, 2)) ∧
      ∃ offset, Position.Marks "é\n<!--%%-->x<!--%%--><!-- ~%<!--%%-->y<!--%%-->%q:a% -->".toList
          offset ⟨2, 25⟩ ∧
        Offends ⟨.standard, .none, true⟩ (loadId ⟨.standard, .none, true⟩ 1 []) [] none
          "é\n<!--%%-->x<!--%%--><!-- ~%<!--%%-->y<!--%%-->%q:a% -->".toList (.ofCapacity 0)
          (.unknownTag ['q']) offset := by
  have hcut := CutAt.splitOn (by decide : Markers.standard.ditch ≠ [])
    "é\n<!--%%-->x<!--%%--><!-- ~%<!--%%-->y<!--%%-->%q:a% -->".toList
  have hsplit : Text.splitOn Markers.standard.ditch
      "é\n<!--%%-->x<!--%%--><!-- ~%<!--%%-->y<!--%%-->%q:a% -->".toList =
      ["é\n".toList, "x".toList, "<!-- ~%".toList, "y".toList, "%q:a% -->".toList] := by
    decide
  have hp : (tokenize .standard "é\n<!-- ~%%q:a% -->".toList).pieces =
      [.text "é\n".toList,
        .token ⟨.unknown ['q'], 7, "~%%q:a%".toList, "<!-- ".toList, " -->".toList⟩] := by
    decide
  have herror : (parseText ⟨.standard, .none, true⟩
        "é\n<!--%%-->x<!--%%--><!-- ~%<!--%%-->y<!--%%-->%q:a% -->".toList).on (.ofCapacity 0) =
      (.error (.parse ⟨.unknownTag ['q'], "<string>".toList, ⟨2, 25⟩⟩), (.ofCapacity 0, 2)) := by
    have hj : LevelNames.empty.judge
        ⟨.unknown ['q'], 7, "~%%q:a%".toList, "<!-- ".toList, " -->".toList⟩ [] =
        .fault (.unknownTag ['q']) := rfl
    rw [hsplit] at hcut
    have hd := Draft.ofSource_of_cutAt none (by decide : Markers.standard.ditch ≠ []) hcut
      rfl 1
    have htext : (Draft.ofSegments Markers.standard.ditch none
        "é\n<!--%%-->x<!--%%--><!-- ~%<!--%%-->y<!--%%-->%q:a% -->".toList
        ["é\n".toList, "x".toList, "<!-- ~%".toList, "y".toList, "%q:a% -->".toList]).text =
        "é\n<!-- ~%%q:a% -->".toList := by
      decide
    unfold parseText
    rw [on_parseWith_ok _ hd, htext, hp, level_text, level_token, hj]
    rfl
  refine ⟨Markers.valid_standard, herror, ?_⟩
  rcases (parseWith_error_marks (p := ⟨.standard, .none, true⟩) Markers.valid_standard
      (loadId ⟨.standard, .none, true⟩ 1 []) [] none _ herror).1 with h | ⟨-, h⟩
  · -- Nothing can be included.
    obtain ⟨_, _, _, _, _, _, i, _, _, hl, _, _⟩ := h
    cases hl
  · exact h

/-! ## Whole runs -/

/-- The error is about a construct of the source, in a parse whose includes are loaded. -/
def Located (p : Parser) (id : Option SourceId) (source : Text) (e : ParseError) : Prop :=
  e.origin = (Stamp.mk 0 id).origin ∧ ∃ n stack b offset,
    Position.Marks source offset e.position ∧
      p.Offends (p.loadId n stack) stack id source b e.fault offset

/-- A parse through the cache fails only where the parse itself does. -/
theorem cached_error {i : SourceId} {parse : Parsing Template} {err : LoadError}
    (h : (p.cached i parse).on b = (.error err, b')) :
    ∃ b₁ b₁', parse.on b₁ = (.error err, b₁') := by
  unfold cached at h
  split at h
  · obtain ⟨c, serial⟩ := b
    change Cache.getOrParse 0 i (fun b => parse.run b) (c, serial) = (.error err, b') at h
    rcases Cache.getOrParse_cases 0 i (fun b => parse.run b) c serial with
      ⟨v, c', he⟩ | ⟨c₁, c₂, he⟩
    · rw [he] at h
      cases h
    · rw [he] at h
      have hfst : (parse.on (c₁, serial)).1 = .error err := congrArg Prod.fst h
      exact ⟨(c₁, serial), _, Prod.ext hfst rfl⟩
  · exact ⟨b, b', h⟩

/-- **The error of a source that is loaded is about a construct of that source**, or of one that it
leads to. -/
theorem loadId_error_located (hm : p.markers.Valid) (n : Nat) (stack : List SourceId)
    (i : SourceId) (h : (p.loadId n stack i).on b = (.error (.parse e), b')) :
    ∃ j source, p.readText j = .ok source ∧ p.Located (some j) source e := by
  induction n generalizing stack i b b' with
  | zero => cases h
  | succ n ih =>
    obtain ⟨b₁, b₁', h⟩ := cached_error h
    cases hr : p.readText i with
    | error err =>
      rw [hr, Parsing.lift_error_bind] at h
      obtain rfl : err = .parse e := Except.error.inj (congrArg Prod.fst h)
      unfold readText at hr
      split at hr
      · cases hr
      · split at hr <;> cases hr
    | ok source =>
      rw [hr, Parsing.lift_ok_bind] at h
      rcases handsOn_or_offends hm (some i) source h with h | ⟨horigin, offset, hmarks, hoffends⟩
      · obtain ⟨_, _, _, _, s, _, j, _, _, _, _, hinner⟩ := h
        exact ih _ _ hinner
      · exact ⟨i, source, hr, horigin, n, _, b₁, offset, hmarks, hoffends⟩

/-- **Every error of a parse is about a construct of the source that was given, or of one that was
read**, and has its position there. -/
theorem parseAs_error_located (hm : p.markers.Valid) (id : Option SourceId) (source : Text)
    (h : (p.parseAs id source).on b = (.error (.parse e), b')) :
    p.Located id source e ∨
      ∃ j source', p.readText j = .ok source' ∧ p.Located (some j) source' e := by
  rw [parseAs_eq] at h
  rcases handsOn_or_offends hm id source h with h | ⟨horigin, offset, hmarks, hoffends⟩
  · obtain ⟨_, _, _, _, s, _, j, _, _, _, _, hinner⟩ := h
    exact .inr (loadId_error_located hm _ _ j hinner)
  · exact .inl ⟨horigin, _, _, b, offset, hmarks, hoffends⟩

end Parser

end Stencil
