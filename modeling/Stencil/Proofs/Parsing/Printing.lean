import Stencil.Proofs.Markup.Spelling
import Stencil.Proofs.Parsing.Inline

/-!
# Parsing undoes printing

**Items** (`Item`). What a template without includes can be written as, with the standard markers:
texts, variables, and inline templates between their tags. `Item.printAll` writes them down, and
`Item.parts` is what they are meant to be.

**Conditions** (`Item.Level`, `Item.Writable`). What keeps the items of a level apart from each
other and from the markup. An inline template may have the name of one that it does not lie in, but
not of one around it, since the nearest end tag of a name closes it.

**Main fact** (`Parser.parseAs_print`). The text of writable items is cut into the tokens it was
written with (`Item.spelled_append`), and these make the parts again (`Item.plainLevel_allPieces`).
-/

namespace Stencil

/-- What is written at one place of a template. -/
inductive Item where
  | text (content : Text)
  | var (kind : EscapeKind) (name : Text)
  | inline (name : Text) (body : List Item)

namespace Item

/-- Items are lists, and lists of items inside inline templates. -/
theorem list_induction {motive : List Item → Prop} (nil : motive [])
    (text : ∀ content rest, motive rest → motive (.text content :: rest))
    (var : ∀ kind name rest, motive rest → motive (.var kind name :: rest))
    (inline : ∀ name body rest, motive body → motive rest → motive (.inline name body :: rest)) :
    ∀ items, motive items
  | [] => nil
  | .text content :: rest => text content rest (list_induction nil text var inline rest)
  | .var kind name :: rest => var kind name rest (list_induction nil text var inline rest)
  | .inline name body :: rest =>
    inline name body rest (list_induction nil text var inline body)
      (list_induction nil text var inline rest)

/-! ## Writing -/

/-- What stands in a variable between its markers. -/
def varBody (kind : EscapeKind) (name : Text) : Text :=
  match kind.token? with
  | some token => token ++ ':' :: name
  | none => name

/-- The token of a variable. -/
def varToken (kind : EscapeKind) (name : Text) : Token :=
  ⟨.var (varBody kind name), 0, '~' :: ('%' :: varBody kind name ++ ['%']), [], []⟩

/-- The tag before an inline template. -/
def beginToken (name : Text) : Token :=
  ⟨.opens name, 0, '~' :: ('%' :: '%' :: 'b' :: 'e' :: 'g' :: 'i' :: 'n' :: ':' :: name ++ ['%']),
    [], []⟩

/-- The tag behind an inline template. -/
def endToken (name : Text) : Token :=
  ⟨.closes name, 0, '~' :: ('%' :: '%' :: 'e' :: 'n' :: 'd' :: ':' :: name ++ ['%']), [], []⟩

mutual

/-- The text of an item. -/
def print : Item → Text
  | .text content => content
  | .var kind name => (varToken kind name).body
  | .inline name body => (beginToken name).body ++ printAll body ++ (endToken name).body

/-- The text of items, one after another. -/
def printAll : List Item → Text
  | [] => []
  | item :: rest => item.print ++ printAll rest

end

mutual

/-- The part that the item is written for. -/
def part : Item → Part
  | .text content => .text content
  | .var kind name => .var name kind (varToken kind name).body
  | .inline name body =>
    .nested name (.inline (beginToken name).body (endToken name).body) ⟨0, none⟩ (parts body)

def parts : List Item → List Part
  | [] => []
  | item :: rest => item.part :: parts rest

end

mutual

/-- The texts and tokens that the item is written with. -/
def pieces : Item → List Piece
  | .text content => [.text content]
  | .var kind name => [.token (varToken kind name)]
  | .inline name body => .token (beginToken name) :: (allPieces body ++ [.token (endToken name)])

def allPieces : List Item → List Piece
  | [] => []
  | item :: rest => item.pieces ++ allPieces rest

end

mutual

/-- The names of the item and of inline templates inside it, at any depth. -/
def inlineNames : Item → List Text
  | .text _ => []
  | .var _ _ => []
  | .inline name body => name :: allInlineNames body

def allInlineNames : List Item → List Text
  | [] => []
  | item :: rest => item.inlineNames ++ allInlineNames rest

end

theorem allPieces_inline (name : Text) (body rest : List Item) :
    allPieces (.inline name body :: rest) =
      .token (beginToken name) :: (allPieces body ++ .token (endToken name) :: allPieces rest) := by
  rw [allPieces, pieces, List.cons_append, List.append_assoc]
  rfl

/-! ## Writable items -/

/-- The name can stand in a tag. -/
structure GoodName (name : Text) : Prop where
  nonempty : name ≠ []
  noCloser : '%' ∉ name
  oneLine : ∀ c ∈ name, Text.isBreak c = false
  noComment : ¬ Markers.standard.commentStart <:+: name

/-- The name of an inline template. -/
def inlineName? : Item → Option Text
  | .inline name _ => some name
  | _ => none

/-- The items can stand on one level. -/
structure Level (items : List Item) : Prop where
  texts : ∀ content, .text content ∈ items → content ≠ [] ∧
    ¬ Markers.standard.varStart <:+: content ∧ ¬ Markers.standard.commentStart <:+: content
  apart : ∀ before a b after, items ≠ before ++ .text a :: .text b :: after
  vars : ∀ kind name, .var kind name ∈ items →
    GoodName name ∧ (kind = .unspecified → ':' ∉ name)
  inlines : ∀ name body, .inline name body ∈ items → GoodName name ∧ name ∉ allInlineNames body
  unique : (items.filterMap inlineName?).Nodup
  other : ∀ kind name, .var kind name ∈ items → name ∉ items.filterMap inlineName?

/-- Each level of the items can stand as it is. -/
inductive Writable : List Item → Prop
  | mk {items : List Item} (level : Level items)
      (inside : ∀ name body, .inline name body ∈ items → Writable body) : Writable items

variable {items rest body : List Item} {item : Item} {name : Text} {kind : EscapeKind}

theorem Level.tail (h : Level (item :: rest)) : Level rest where
  texts := fun content hc => h.texts content (List.mem_cons_of_mem _ hc)
  apart := fun before a b after he => h.apart (item :: before) a b after (congrArg _ he)
  vars := fun kind name hv => h.vars kind name (List.mem_cons_of_mem _ hv)
  inlines := fun name body hi => h.inlines name body (List.mem_cons_of_mem _ hi)
  unique := h.unique.sublist ((List.sublist_cons_self item rest).filterMap _)
  other := fun kind name hv hmem => h.other kind name (List.mem_cons_of_mem _ hv)
    (((List.sublist_cons_self item rest).filterMap _).subset hmem)

theorem Writable.level (h : Writable items) : Level items := by
  cases h with
  | mk level inside => exact level

theorem Writable.tail (h : Writable (item :: rest)) : Writable rest := by
  cases h with
  | mk level inside =>
    exact .mk level.tail fun name body hi => inside name body (List.mem_cons_of_mem _ hi)

theorem Writable.inside (h : Writable (.inline name body :: rest)) : Writable body := by
  cases h with
  | mk level inside => exact inside name body List.mem_cons_self

/-! ## What is printed -/

theorem allPieces_raw (items : List Item) :
    (allPieces items).flatMap Piece.raw = printAll items := by
  induction items using list_induction with
  | nil => rfl
  | text content rest ih =>
    rw [allPieces, printAll, List.flatMap_append, ih]
    simp [pieces, print, Piece.raw]
  | var kind name rest ih =>
    rw [allPieces, printAll, List.flatMap_append, ih]
    simp [pieces, print, Piece.raw, Token.raw, varToken]
  | inline name body rest ih₁ ih₂ =>
    rw [allPieces_inline, printAll, List.flatMap_cons, List.flatMap_append, List.flatMap_cons, ih₁,
      ih₂]
    simp [print, Piece.raw, Token.raw, beginToken, endToken]

/-- A text without line breaks, as the text is searched. -/
theorem forall_isBreak {t : Text} (h : t.any Text.isBreak = false) :
    ∀ c ∈ t, Text.isBreak c = false :=
  fun c hc => Bool.eq_false_iff.2 (List.any_eq_false.1 h c hc)

/-- The name can stand behind a word for an escape kind. -/
theorem GoodName.varBody (h : GoodName name) (kind : EscapeKind) :
    GoodName (varBody kind name) := by
  have hword : ∀ word : Text, '%' ∉ word → (∀ c ∈ word, Text.isBreak c = false) →
      ¬ Markers.standard.commentStart <:+: word → GoodName (word ++ ':' :: name) := by
    intro word hcloser hline hcomment
    refine ⟨by simp, ?_, ?_, fun hin => ?_⟩
    · simp only [List.mem_append, List.mem_cons, not_or]
      exact ⟨hcloser, by decide, h.noCloser⟩
    · intro c hc
      rcases List.mem_append.1 hc with hc | hc
      · exact hline c hc
      · rcases List.mem_cons.1 hc with rfl | hc
        · rfl
        · exact h.oneLine c hc
    · exact (infix_of_separated (by decide) hin).elim hcomment h.noComment
  cases kind with
  | unspecified => exact h
  | text | html | js => exact hword _ (by decide) (forall_isBreak rfl) (by decide)

theorem spelled_var (h : GoodName name) {ps : List Piece} (hps : Spelled ps) :
    Spelled (.token (varToken kind name) :: ps) := by
  have hbody := h.varBody kind
  refine .token (fun v => ?_) (fun hin => ?_) hps
  · exact Markers.token?_standard_var hbody.nonempty hbody.noCloser hbody.oneLine v
  · have hopener : ¬ Markers.standard.commentStart <:+: [] := by decide
    exact (infix_of_separated (a := []) (by decide) hin).elim hopener hbody.noComment

theorem spelled_begin (h : GoodName name) {ps : List Piece} (hps : Spelled ps) :
    Spelled (.token (beginToken name) :: ps) := by
  refine .token (fun v => ?_) (fun hin => ?_) hps
  · exact Markers.token?_standard_tag ['b', 'e', 'g', 'i', 'n'] (by decide)
      (List.all_eq_true.1 rfl) h.noCloser h.oneLine v
  · have hword : ¬ Markers.standard.commentStart <:+: ['%', '%', 'b', 'e', 'g', 'i', 'n'] := by
      decide
    exact (infix_of_separated (by decide) hin).elim hword h.noComment

theorem spelled_end (h : GoodName name) {ps : List Piece} (hps : Spelled ps) :
    Spelled (.token (endToken name) :: ps) := by
  refine .token (fun v => ?_) (fun hin => ?_) hps
  · exact Markers.token?_standard_tag ['e', 'n', 'd'] (by decide) (List.all_eq_true.1 rfl)
      h.noCloser h.oneLine v
  · have hword : ¬ Markers.standard.commentStart <:+: ['%', '%', 'e', 'n', 'd'] := by decide
    exact (infix_of_separated (by decide) hin).elim hword h.noComment

/-- **Writable items are spelled by their texts and tokens**, with other pieces behind them. -/
theorem spelled_append (h : Writable items) {ps : List Piece} (hps : Spelled ps)
    (hfirst : ∀ content qs, ps ≠ .text content :: qs) : Spelled (allPieces items ++ ps) := by
  induction items using list_induction generalizing ps with
  | nil => exact hps
  | text content rest ih =>
    obtain ⟨hne, hopener, hcomment⟩ := h.level.texts content List.mem_cons_self
    refine .text hne hopener hcomment (fun other qs hother => ?_) (ih h.tail hps hfirst)
    cases rest with
    | nil => exact hfirst other qs hother
    | cons item rest =>
      cases item with
      | text other => exact h.level.apart [] content other rest rfl
      | var kind name => cases hother
      | inline name body => cases hother
  | var kind name rest ih =>
    exact spelled_var (h.level.vars kind name List.mem_cons_self).1 (ih h.tail hps hfirst)
  | inline name body rest ih₁ ih₂ =>
    have hname := (h.level.inlines name body List.mem_cons_self).1
    rw [allPieces_inline, List.cons_append, List.append_assoc]
    refine spelled_begin hname (ih₁ h.inside (spelled_end hname (ih₂ h.tail hps hfirst)) ?_)
    exact fun content qs he => nomatch he

/-! ## What is parsed -/

/-- Only the end tags of inline templates are among the pieces. -/
theorem mem_inlineNames_of_ends {p : Piece} (hp : p ∈ allPieces items)
    (hends : p.ends name = true) : name ∈ allInlineNames items := by
  induction items using list_induction with
  | nil => cases hp
  | text content rest ih =>
    rcases List.mem_cons.1 hp with rfl | hp
    · cases hends
    · exact ih hp
  | var kind other rest ih =>
    rcases List.mem_cons.1 hp with rfl | hp
    · simp [Piece.ends, varToken] at hends
    · exact ih hp
  | inline other body rest ih₁ ih₂ =>
    rw [allPieces_inline] at hp
    show name ∈ other :: (allInlineNames body ++ allInlineNames rest)
    rcases List.mem_cons.1 hp with rfl | hp
    · simp [Piece.ends, beginToken] at hends
    rcases List.mem_append.1 hp with hp | hp
    · exact List.mem_cons_of_mem _ (List.mem_append_left _ (ih₁ hp))
    rcases List.mem_cons.1 hp with rfl | hp
    · obtain rfl : other = name := by simpa [Piece.ends, endToken] using hends
      exact List.mem_cons_self
    · exact List.mem_cons_of_mem _ (List.mem_append_right _ (ih₂ hp))

theorem readVariable_varBody (h : kind = .unspecified → ':' ∉ name) :
    readVariable (varBody kind name) = .ok (kind, name) := by
  have hword : ∀ (word : Text) (k : EscapeKind), k.token? = some word → ':' ∉ word →
      readVariable (word ++ ':' :: name) = .ok (k, name) := by
    intro word k hk hword
    unfold readVariable
    rw [Text.splitOnce_eq_some_iff.2 ⟨rfl, hword⟩]
    dsimp only
    rw [EscapeKind.ofToken?_eq_some_iff.2 hk]
  cases kind with
  | unspecified =>
    have hnone : Text.splitOnce ':' name = none := by
      rw [Option.eq_none_iff_forall_ne_some]
      rintro ⟨a, b⟩ hab
      refine h rfl ?_
      rw [(Text.splitOnce_eq_some_iff.1 hab).1]
      exact List.mem_append_right _ List.mem_cons_self
    show readVariable name = _
    rw [readVariable, hnone]
  | text => exact hword _ .text rfl (by decide)
  | html => exact hword _ .html rfl (by decide)
  | js => exact hword _ .js rfl (by decide)

/-- The names used so far are not those of the items, but for variables. -/
structure Fresh (names : LevelNames) (items : List Item) : Prop where
  vars : ∀ kind name, .var kind name ∈ items → name ∉ names.nested
  inlines : ∀ name ∈ items.filterMap inlineName?, names.uses name = false

theorem fresh_empty : Fresh .empty items where
  vars := fun _ _ _ => List.not_mem_nil
  inlines := fun _ _ => rfl

theorem Fresh.tail {names : LevelNames} (h : Fresh names (item :: rest)) : Fresh names rest where
  vars := fun kind name hv => h.vars kind name (List.mem_cons_of_mem _ hv)
  inlines := fun name hn =>
    h.inlines name (((List.sublist_cons_self item rest).filterMap _).subset hn)

theorem Fresh.addVariable {names : LevelNames} (h : Fresh names (.var kind name :: rest))
    (hl : Level (.var kind name :: rest)) : Fresh (names.addVariable name) rest where
  vars := h.tail.vars
  inlines := by
    intro other hother
    have hne : other ≠ name := by
      rintro rfl
      exact hl.other kind other List.mem_cons_self hother
    have huses := h.tail.inlines other hother
    simp only [LevelNames.uses, LevelNames.addVariable, Bool.or_eq_false_iff] at huses ⊢
    simpa [hne] using huses

theorem Fresh.addNested {names : LevelNames} (h : Fresh names (.inline name body :: rest))
    (hl : Level (.inline name body :: rest)) : Fresh (names.addNested name) rest where
  vars := by
    intro kind other hv hmem
    rcases List.mem_cons.1 hmem with rfl | hmem
    · exact hl.other kind other (List.mem_cons_of_mem _ hv) List.mem_cons_self
    · exact h.tail.vars kind other hv hmem
  inlines := by
    intro other hother
    have hne : other ≠ name := by
      rintro rfl
      exact (List.nodup_cons.1 hl.unique).1 hother
    have huses := h.tail.inlines other hother
    simp only [LevelNames.uses, LevelNames.addNested, Bool.or_eq_false_iff] at huses ⊢
    simpa [hne] using huses

end Item

theorem Token.raw_of_bare {t : Token} (hlead : t.lead = []) (htrail : t.trail = []) :
    t.raw = t.body := by
  rw [raw, hlead, htrail, List.append_nil, List.nil_append]

/-- The nearest end tag of a name is the first piece that ends it. -/
theorem splitEnd_append {name : Text} {ps after : List Piece} {c : Token}
    (hps : ∀ p ∈ ps, p.ends name = false) (hc : c.kind = .closes name) :
    splitEnd name (ps ++ .token c :: after) = some (ps, c, after) := by
  induction ps with
  | nil => rw [List.nil_append, splitEnd, if_pos hc]
  | cons p ps ih =>
    have hrest := ih fun q hq => hps q (List.mem_cons_of_mem _ hq)
    cases p with
    | text content =>
      rw [List.cons_append, splitEnd, hrest]
      rfl
    | token t =>
      have ht : t.kind ≠ .closes name := of_decide_eq_false (hps _ List.mem_cons_self)
      rw [List.cons_append, splitEnd, if_neg ht, hrest]
      rfl

namespace Item

/-- **The pieces of writable items are a level with their parts.** -/
theorem plainLevel_allPieces {d : Draft} {load : Text → Nat → Except LoadError Template}
    {items : List Item} (h : Writable items) {names : LevelNames} (hn : Fresh names items) :
    plainLevel d load names (allPieces items) = .ok (parts items) := by
  induction items using list_induction generalizing names with
  | nil => exact plainLevel_nil
  | text content rest ih =>
    show plainLevel d load names (.text content :: allPieces rest) = _
    rw [plainLevel_text, ih h.tail hn.tail]
    rfl
  | var kind name rest ih =>
    obtain ⟨hgood, hcolon⟩ := h.level.vars kind name List.mem_cons_self
    have hjudge : names.judge (varToken kind name) (allPieces rest) = .var kind name := by
      unfold LevelNames.judge varToken
      dsimp only
      rw [readVariable_varBody hcolon]
      dsimp only
      rw [if_neg hgood.nonempty, if_neg (hn.vars kind name List.mem_cons_self)]
    show plainLevel d load names (.token (varToken kind name) :: allPieces rest) = _
    rw [plainLevel_token, hjudge]
    dsimp only
    rw [ih h.tail (hn.addVariable h.level), ok_bind, Token.raw_of_bare rfl rfl]
    rfl
  | inline name body rest ih₁ ih₂ =>
    obtain ⟨hgood, hbelow⟩ := h.level.inlines name body List.mem_cons_self
    have hsplit : splitEnd name (allPieces body ++ .token (endToken name) :: allPieces rest) =
        some (allPieces body, endToken name, allPieces rest) := by
      refine splitEnd_append (fun p hp => ?_) rfl
      rw [← Bool.not_eq_true]
      exact fun hends => hbelow (mem_inlineNames_of_ends hp hends)
    have hjudge : names.judge (beginToken name)
        (allPieces body ++ .token (endToken name) :: allPieces rest) =
          .opens name (allPieces body) (endToken name) (allPieces rest) := by
      unfold LevelNames.judge
      rw [show (beginToken name).kind = .opens name from rfl]
      dsimp only
      rw [if_neg hgood.nonempty, hsplit]
      dsimp only
      rw [hn.inlines name List.mem_cons_self, if_neg Bool.false_ne_true]
    rw [allPieces_inline, plainLevel_token, hjudge]
    dsimp only
    rw [ih₁ h.inside fresh_empty, ok_bind, ih₂ h.tail (hn.addNested h.level), ok_bind,
      Token.raw_of_bare rfl rfl, Token.raw_of_bare rfl rfl]
    rfl

theorem includePaths_allPieces (items : List Item) : includePaths (allPieces items) = [] := by
  induction items using list_induction with
  | nil => rfl
  | text content rest ih => exact ih
  | var kind name rest ih => exact ih
  | inline name body rest ih₁ ih₂ =>
    rw [allPieces_inline]
    show includePaths (allPieces body ++ .token (endToken name) :: allPieces rest) = []
    unfold includePaths at ih₁ ih₂ ⊢
    rw [List.filterMap_append, ih₁, List.nil_append]
    exact ih₂

end Item

theorem includePaths_unplaced (ps : List Piece) :
    includePaths (ps.map Piece.unplaced) = includePaths ps := by
  unfold includePaths
  rw [List.filterMap_map]
  refine List.filterMap_congr fun p _ => ?_
  cases p <;> rfl

namespace Parser

open Item

/-- **Parsing undoes printing.** Writable items, written with the standard markers, parse to the
parts they were written for, whatever the resolver and the cache. -/
theorem parseAs_print {p : Parser} (hm : p.markers = .standard) {items : List Item}
    (h : Writable items) (id : Option SourceId) (b : Bench) :
    ∃ t, ((p.parseAs id (printAll items)).on b).1 = .ok t ∧
      t.unnumbered = ⟨⟨0, id⟩, parts items⟩ := by
  have hspelled : Spelled (allPieces items) := by
    simpa using spelled_append h .nil fun _ _ he => nomatch he
  have hditch : ¬ p.markers.ditch <:+: printAll items := by
    intro hin
    rw [hm] at hin
    rw [← allPieces_raw] at hin
    exact hspelled.noComment (List.IsInfix.trans (by decide) hin)
  have hpieces := hspelled.standalone.pieces_eq Markers.valid_standard
  rw [allPieces_raw, ← hm] at hpieces
  have hpaths : p.pathsIn (printAll items) = [] := by
    rw [pathsIn_eq (Draft.ofSource_whole hditch id 0)]
    show includePaths (tokenize p.markers (printAll items)).pieces = []
    rw [← includePaths_unplaced, hpieces, includePaths_unplaced, includePaths_allPieces]
  have hplain : p.plainWith (fun _ _ _ => .error .endless) id (printAll items) =
      .ok ⟨⟨0, id⟩, parts items⟩ := by
    unfold plainWith
    rw [Draft.ofSource_whole hditch id 0, ok_bind]
    show plainLevel _ _ .empty (tokenize p.markers (printAll items)).pieces >>= _ = _
    have hlevel : plainLevel (.whole id (printAll items)) (fun _ _ => .error .endless) .empty
        (allPieces items) = .ok (parts items) := plainLevel_allPieces h fresh_empty
    rw [plainLevel_unplaced (fun _ _ _ _ hl => by cases hl) .empty _ hpieces hlevel]
    rfl
  have hyields : Parsing.Yields (fun _ => True) Template.unnumbered (p.parseAs id (printAll items))
      (p.plainWith (fun _ _ _ => .error .endless) id (printAll items)) := by
    rw [parseAs_eq]
    refine .parseWith id _ fun d path hp => ?_
    rw [hpaths] at hp
    cases hp
  have hrun := (hyields b trivial).1
  rw [hplain] at hrun
  exact map_eq_ok hrun

/-- Texts and names that begin and end like markup. -/
def nearMarkup : List Item :=
  [.text ['~'], .inline ['r', ':'] [.var .html [':', '~'], .text ['%', '-', '-', '>']],
    .var .unspecified ['~']]

theorem writable_nearMarkup : Writable nearMarkup := by
  have hname : ∀ name ∈ [['r', ':'], [':', '~'], ['~']], GoodName name := by
    intro name hname
    simp only [List.mem_cons, List.not_mem_nil, or_false] at hname
    rcases hname with rfl | rfl | rfl <;>
      exact ⟨by decide, by decide, forall_isBreak rfl, by decide⟩
  have hrow : Writable [.var .html [':', '~'], .text ['%', '-', '-', '>']] := by
    refine .mk ⟨fun content hc => ?_, fun before a b after he => ?_, fun kind name hv => ?_,
      fun name body hi => ?_, by decide, fun kind name _ => List.not_mem_nil⟩ fun name body hi => ?_
    · obtain rfl : content = ['%', '-', '-', '>'] := by simpa using hc
      exact ⟨by decide, by decide, by decide⟩
    · rcases before with _ | ⟨_, _ | ⟨_, before⟩⟩ <;> simp at he
    · obtain ⟨rfl, rfl⟩ : kind = .html ∧ name = [':', '~'] := by simpa using hv
      exact ⟨hname _ (by simp), nofun⟩
    · simp at hi
    · simp at hi
  refine .mk ⟨fun content hc => ?_, fun before a b after he => ?_, fun kind name hv => ?_,
    fun name body hi => ?_, by decide, fun kind name hv => ?_⟩ fun name body hi => ?_
  · obtain rfl : content = ['~'] := by simpa [nearMarkup] using hc
    exact ⟨by decide, by decide, by decide⟩
  · rcases before with _ | ⟨_, _ | ⟨_, _ | ⟨_, before⟩⟩⟩ <;> simp [nearMarkup] at he
  · obtain ⟨rfl, rfl⟩ : kind = .unspecified ∧ name = ['~'] := by simpa [nearMarkup] using hv
    exact ⟨hname _ (by simp), fun _ => by decide⟩
  · obtain ⟨rfl, rfl⟩ : name = ['r', ':'] ∧ body = [.var .html [':', '~'],
      .text ['%', '-', '-', '>']] := by simpa [nearMarkup] using hi
    exact ⟨hname _ (by simp), by decide⟩
  · obtain ⟨rfl, rfl⟩ : kind = .unspecified ∧ name = ['~'] := by simpa [nearMarkup] using hv
    decide
  · obtain ⟨rfl, rfl⟩ : name = ['r', ':'] ∧ body = [.var .html [':', '~'],
      .text ['%', '-', '-', '>']] := by simpa [nearMarkup] using hi
    exact hrow

/-- No sign of one item is read together with the next one. -/
theorem parseAs_print_nearMarkup :
    Writable nearMarkup ∧
      ∃ t, ((parseAs ⟨.standard, .none, true⟩ none
        "~~%%begin:r:%~%html::~%%-->~%%end:r:%~%~%".toList).on (.ofCapacity 0)).1 = .ok t ∧
        t.unnumbered = ⟨⟨0, none⟩, parts nearMarkup⟩ :=
  ⟨writable_nearMarkup, parseAs_print rfl writable_nearMarkup none (.ofCapacity 0)⟩

end Parser

end Stencil
