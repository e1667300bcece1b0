import Stencil.Proofs.Markup.Reading
import Stencil.Proofs.Parsing.Printing

/-!
# Adjacent tokens

**Adjacent tokens** (`Adjacent`). Tokens with nothing between them, each of which is read in front
of those behind it. Their text is cut into just these tokens, and none of them hides in a comment,
since a comment would need a text to stand in (`Adjacent.pieces_eq`). With the standard markers no
ditch word stands in it either.

**Parsing** (`Parser.parseText_variable`, `Parser.parseText_inline`). Without a ditch word in it, a
variable alone is a template with one part, and so are two tags of one name with tokens between
them that are a level.
-/

namespace Stencil

/-! ## Spelling -/

namespace Markers

/-- A variable as it is written. -/
def variableText (m : Markers) (name : Text) : Text := m.varStart ++ (name ++ m.varEnd)

/-- A tag as it is written. -/
def tagText (m : Markers) (keyword arg : Text) : Text :=
  m.tagStart ++ (keyword ++ ':' :: (arg ++ m.tagEnd))

/-- The begin tag of an inline template. -/
def beginText (m : Markers) (name : Text) : Text := m.tagText ['b', 'e', 'g', 'i', 'n'] name

/-- The end tag of an inline template. -/
def endText (m : Markers) (name : Text) : Text := m.tagText ['e', 'n', 'd'] name

end Markers

/-! ## Reading -/

/-- The text of tokens with nothing between them. -/
def bodies (tokens : List (TokenKind × Text)) : Text := tokens.flatMap Prod.snd

theorem bodies_cons (kind : TokenKind) (body : Text) (rest : List (TokenKind × Text)) :
    bodies ((kind, body) :: rest) = body ++ bodies rest := List.flatMap_cons

theorem bodies_singleton (kind : TokenKind) (body : Text) : bodies [(kind, body)] = body :=
  List.append_nil body

theorem bodies_append (front back : List (TokenKind × Text)) :
    bodies (front ++ back) = bodies front ++ bodies back := List.flatMap_append

/-- Each token is read in front of those behind it. -/
def Adjacent (m : Markers) : List (TokenKind × Text) → Prop
  | [] => True
  | (kind, body) :: rest => m.token? (body ++ bodies rest) = some (kind, body) ∧ Adjacent m rest

/-- The tokens with their places, from a place on. -/
def placedFrom (pos : Nat) : List (TokenKind × Text) → List Token
  | [] => []
  | (kind, body) :: rest => ⟨kind, pos, body, [], []⟩ :: placedFrom (pos + body.length) rest

namespace Adjacent

variable {m : Markers} {tokens : List (TokenKind × Text)}

theorem scanFrom_eq (hm : m.Valid) (h : Adjacent m tokens) (pos : Nat) :
    scanFrom m pos 0 (bodies tokens) = ⟨[], (placedFrom pos tokens).map (·, [])⟩ := by
  induction tokens generalizing pos with
  | nil => rfl
  | cons e rest ih =>
    obtain ⟨kind, body⟩ := e
    obtain ⟨hread, hrest⟩ := h
    have hbody : body ≠ [] := hm.token?_ne_nil hread
    rw [bodies_cons]
    cases body with
    | nil => exact absurd rfl hbody
    | cons c body =>
      rw [List.cons_append] at hread ⊢
      rw [scanFrom, hread]
      dsimp only
      rw [List.length_cons, Nat.add_sub_cancel, scanFrom_skip, ih hrest, Nat.add_assoc,
        Nat.add_comm 1]
      rfl

/-- A token with no text before it hides in no comment. -/
theorem claim_bare (hm : m.Valid) (placed : List Token) :
    claim m [] (placed.map (·, [])) = ⟨[], placed.map (·, [])⟩ := by
  have hnone : m.wrapper? [] [] = none := by
    unfold Markers.wrapper?
    have hstart : Text.upTo? m.commentStart (Text.trimEnd []) = none := by
      rw [Option.eq_none_iff_forall_ne_some]
      intro kept hkept
      have hempty : [] = kept ++ m.commentStart := Text.upTo?_eq_some_iff.1 hkept
      exact hm.get_ne_nil .commentStart (List.append_eq_nil_iff.1 hempty.symm).2
    rw [hstart]
    rfl
  induction placed with
  | nil => rfl
  | cons t rest ih =>
    rw [List.map_cons, claim, hnone]
    dsimp only
    rw [ih]

/-- **Adjacent tokens are the pieces of their text.** -/
theorem pieces_eq (hm : m.Valid) (h : Adjacent m tokens) :
    (tokenize m (bodies tokens)).pieces = (placedFrom 0 tokens).map .token := by
  have hscan : tokenize m (bodies tokens) = ⟨[], (placedFrom 0 tokens).map (·, [])⟩ := by
    unfold tokenize scan
    rw [h.scanFrom_eq hm]
    exact claim_bare hm _
  rw [hscan, Scan.pieces, List.flatMap_map]
  exact List.map_eq_flatMap.symm

/-- **No ditch word stands in tokens with the standard markers.** In a token no two closers stand
behind a dash, and every token begins with a tilde. -/
theorem noDitch_standard (h : Adjacent .standard tokens) :
    ¬ Markers.standard.ditch <:+: bodies tokens := by
  suffices hword : ¬ ['-', '%', '%'] <:+: bodies tokens from
    fun hin => hword (List.IsInfix.trans (by decide) hin)
  have htilde : '~' ∉ ['-', '%', '%'] := by decide
  induction tokens with
  | nil => exact (by decide : ¬ ['-', '%', '%'] <:+: ([] : Text))
  | cons e rest ih =>
    obtain ⟨kind, body⟩ := e
    obtain ⟨hread, hrest⟩ := h
    obtain ⟨q, rfl, hbody⟩ := Markers.token?_standard_body hread
    intro hin
    have hinside : ['-', '%', '%'] <:+: '%' :: q ++ bodies rest := by
      have hin' : ['-', '%', '%'] <:+: [] ++ '~' :: ('%' :: q ++ bodies rest) := hin
      exact (infix_of_separated htilde hin').resolve_left (by decide)
    cases rest with
    | nil =>
      rw [show bodies [] = [] from rfl, List.append_nil] at hinside
      exact hbody hinside
    | cons e' rest =>
      obtain ⟨kind', body'⟩ := e'
      obtain ⟨q', rfl, -⟩ := Markers.token?_standard_body hrest.1
      have hlater : ¬ ['-', '%', '%'] <:+: '~' :: ('%' :: q' ++ bodies rest) := ih hrest
      have hboth : ['-', '%', '%'] <:+: ('%' :: q) ++ '~' :: ('%' :: q' ++ bodies rest) := hinside
      rcases infix_of_separated htilde hboth with hin | hin
      · exact hbody hin
      · exact hlater (hin.trans (List.suffix_cons '~' _).isInfix)

end Adjacent

theorem placedFrom_append (pos : Nat) (front back : List (TokenKind × Text)) :
    placedFrom pos (front ++ back) =
      placedFrom pos front ++ placedFrom (pos + (bodies front).length) back := by
  induction front generalizing pos with
  | nil => rfl
  | cons e front ih =>
    obtain ⟨kind, body⟩ := e
    rw [List.cons_append, placedFrom, placedFrom, ih, bodies_cons, List.length_append, Nat.add_assoc]
    rfl

theorem kind_of_mem_placedFrom {tokens : List (TokenKind × Text)} {pos : Nat} {t : Token}
    (h : t ∈ placedFrom pos tokens) : ∃ e ∈ tokens, t.kind = e.1 := by
  induction tokens generalizing pos with
  | nil => cases h
  | cons e tokens ih =>
    rcases List.mem_cons.1 h with rfl | h
    · exact ⟨e, List.mem_cons_self, rfl⟩
    · obtain ⟨e', he', hkind⟩ := ih h
      exact ⟨e', List.mem_cons_of_mem _ he', hkind⟩

/-! ## Parsing -/

namespace Parser

variable {p : Parser} {tokens : List (TokenKind × Text)} {name : Text}

/-- Adjacent tokens without a ditch word are one level. -/
theorem on_parseText_adjacent (hm : p.markers.Valid) (h : Adjacent p.markers tokens)
    (hditch : ¬ p.markers.ditch <:+: bodies tokens) (b : Bench) :
    (p.parseText (bodies tokens)).on b =
      (level (.whole none (bodies tokens)) (p.loadFromTop (.whole none (bodies tokens))) .empty
        ((placedFrom 0 tokens).map .token) >>= fun parts =>
          pure (⟨⟨b.2, none⟩, parts⟩ : Template)).on (b.1, b.2 + 1) := by
  unfold parseText
  rw [parseWith_whole hditch, h.pieces_eq hm]

/-- A variable that is alone on its level. -/
theorem on_level_variable {body text : Text} {kind : EscapeKind}
    (hread : readVariable body = .ok (kind, name)) (hname : name ≠ []) (d : Draft)
    (load : Text → Nat → Parsing Template) (pos : Nat) (b : Bench) :
    (level d load .empty ((placedFrom pos [(.var body, text)]).map .token)).on b =
      (.ok [.var name kind text], b) := by
  have hjudge : LevelNames.empty.judge ⟨.var body, pos, text, [], []⟩ [] = .var kind name := by
    unfold LevelNames.judge
    dsimp only
    rw [hread]
    dsimp only
    rw [if_neg hname, if_neg (show name ∉ LevelNames.empty.nested from List.not_mem_nil)]
  show (level d load .empty [.token ⟨.var body, pos, text, [], []⟩]).on b = _
  rw [level_token, hjudge]
  dsimp only
  rw [level_nil, pure_bind, Token.raw_of_bare rfl rfl]
  rfl

/-- Two tags that are alone on their level, with a level between them. -/
theorem on_level_inline {t c : Token} {inner : List Piece} {parts : List Part} {d : Draft}
    {load : Text → Nat → Parsing Template} {b : Bench} (ht : t.kind = .opens name)
    (hc : c.kind = .closes name) (hname : name ≠ []) (hfree : ∀ q ∈ inner, q.ends name = false)
    (hinner : (level d load .empty inner).on b = (.ok parts, b)) :
    (level d load .empty (.token t :: (inner ++ [.token c]))).on b =
      (.ok [.nested name (.inline t.raw c.raw) ⟨b.2, none⟩ parts], (b.1, b.2 + 1)) := by
  have hjudge : LevelNames.empty.judge t (inner ++ [.token c]) = .opens name inner c [] := by
    unfold LevelNames.judge
    rw [ht]
    dsimp only
    rw [if_neg hname, splitEnd_append hfree hc]
    rfl
  rw [level_token, hjudge]
  dsimp only
  rw [Parsing.on_bind, hinner]
  dsimp only
  rw [level_nil, Parsing.on_bind, Parsing.on_freshStamp]
  rfl

/-- **A variable alone** is a template with one part. -/
theorem parseText_variable (hm : p.markers.Valid) {body text : Text} {kind : EscapeKind}
    (htoken : p.markers.token? text = some (.var body, text))
    (hditch : ¬ p.markers.ditch <:+: text) (hread : readVariable body = .ok (kind, name))
    (hname : name ≠ []) (b : Bench) :
    ((p.parseText text).on b).1 = .ok ⟨⟨b.2, none⟩, [.var name kind text]⟩ := by
  have hadjacent : Adjacent p.markers [(.var body, text)] := by
    refine ⟨?_, trivial⟩
    rwa [show bodies [] = [] from rfl, List.append_nil]
  rw [← bodies_singleton (.var body) text] at hditch
  have hrun := on_parseText_adjacent hm hadjacent hditch b
  rw [bodies_singleton, Parsing.on_bind, on_level_variable hread hname] at hrun
  exact congrArg Prod.fst hrun

/-- **Two tags alone**, with tokens between them that are a level and do not end it, are a template
with one part. -/
theorem parseText_inline (inner : List (TokenKind × Text)) (parts : List Part)
    (hm : p.markers.Valid) {opener closer : Text}
    (h : Adjacent p.markers ((.opens name, opener) :: (inner ++ [(.closes name, closer)])))
    (hditch : ¬ p.markers.ditch <:+:
      bodies ((.opens name, opener) :: (inner ++ [(.closes name, closer)])))
    (hname : name ≠ []) (hfree : ∀ e ∈ inner, e.1 ≠ .closes name)
    (hinner : ∀ d load pos b, (level d load .empty ((placedFrom pos inner).map .token)).on b =
      (.ok parts, b)) (b : Bench) :
    ((p.parseText (bodies ((.opens name, opener) :: (inner ++ [(.closes name, closer)])))).on b).1 =
      .ok ⟨⟨b.2, none⟩, [.nested name (.inline opener closer) ⟨b.2 + 1, none⟩ parts]⟩ := by
  have hplaced : (placedFrom 0 ((.opens name, opener) :: (inner ++ [(.closes name, closer)]))).map
      Piece.token = .token ⟨.opens name, 0, opener, [], []⟩ ::
        ((placedFrom opener.length inner).map .token ++
          [.token ⟨.closes name, opener.length + (bodies inner).length, closer, [], []⟩]) := by
    rw [placedFrom, placedFrom_append, List.map_cons, List.map_append, Nat.zero_add]
    rfl
  have hends : ∀ q ∈ (placedFrom opener.length inner).map Piece.token, q.ends name = false := by
    intro q hq
    obtain ⟨t, ht, rfl⟩ := List.mem_map.1 hq
    obtain ⟨e, he, hkind⟩ := kind_of_mem_placedFrom ht
    refine decide_eq_false ?_
    rw [hkind]
    exact hfree e he
  have hrun := on_parseText_adjacent hm h hditch b
  rw [hplaced, Parsing.on_bind, on_level_inline rfl rfl hname hends (hinner _ _ _ _),
    Token.raw_of_bare rfl rfl, Token.raw_of_bare rfl rfl] at hrun
  exact congrArg Prod.fst hrun

end Parser

end Stencil
