import Stencil.Engine
import Stencil.Proofs.Escaping.Html
import Stencil.Proofs.Session.Meaning

/-!
# Data stays data

**Segments** (`Template.segments`). What a template writes for an item, in order: literal texts of
its own, and texts of its variables. A segment is written as it stands if it is literal, and escaped
for HTML if it is a value (`Segment.html`).

**Escaping for HTML everywhere** (`Template.HtmlOnly`). Where no variable on any level asks for
another kind of escaping, the text of a template is that of its segments
(`Template.evaluate_html`): every value is escaped once, on its own, and nothing else is changed.

**Rendering** (`Engine.renderData_segments`). So what an engine renders from data holds delimiters
of markup exactly where its literal texts do.
-/

namespace Stencil

/-- A piece of what a template writes. -/
inductive Segment where
  /-- A text of the template. -/
  | literal (text : Text)
  /-- A text of a variable. -/
  | value (text : Text)
  deriving DecidableEq, Repr

namespace Segment

/-- What is written for a segment. -/
def html : Segment → Text
  | .literal t => t
  | .value t => Escape.html t

def literal? : Segment → Option Text
  | .literal t => some t
  | .value _ => none

/-- The literal texts among segments, put together. -/
def literals (segments : List Segment) : Text := (segments.filterMap literal?).flatten

/-- Values add no delimiter to what is written. -/
theorem count_html {c : Char} (h : c ∈ Escape.delimiters) (segments : List Segment) :
    (segments.flatMap html).count c = (literals segments).count c := by
  induction segments with
  | nil => rfl
  | cons s rest ih =>
    rw [List.flatMap_cons, List.count_append, ih]
    cases s with
    | literal t => exact List.count_append.symm
    | value t =>
      have hvalue : (html (.value t)).count c = 0 :=
        List.count_eq_zero.2 (Escape.notMem_html h t)
      rw [hvalue, Nat.zero_add]
      rfl

end Segment

/-! ## What is written -/

section Segments

variable {σ : Type} (r : Reading σ)

mutual

/-- The segments of a part for an item. -/
def Part.segments (item : σ) : Part → List Segment
  | .text content => [.literal content]
  | .var name _ _ => ((r.texts item name).getD []).map .value
  | .nested name _ _ body =>
    ((r.items item name).getD []).flatMap fun x => Part.allSegments x body

/-- The segments of a list of parts for an item. -/
def Part.allSegments (item : σ) : List Part → List Segment
  | [] => []
  | p :: ps => Part.segments item p ++ Part.allSegments item ps

end

/-- The segments of a template for an item, in order. -/
def Template.segments (item : σ) (t : Template) : List Segment := Part.allSegments r item t.parts

end Segments

/-! ## Escaping for HTML everywhere -/

/-- No variable asks for plain text or for a script, on any level. -/
inductive Template.HtmlOnly : Template → Prop
  | mk {t : Template}
      (kinds : ∀ name own raw, .var name own raw ∈ t.parts → own ≠ .text ∧ own ≠ .js)
      (inside : ∀ n ∈ t.nestedList, HtmlOnly n.template) : HtmlOnly t

section Evaluation

variable {σ : Type} {r : Reading σ} {t : Template}

theorem EscapeKind.or_html {own : EscapeKind} (htext : own ≠ .text) (hjs : own ≠ .js) :
    own.or .html = .html := by
  cases own with
  | text => exact absurd rfl htext
  | js => exact absurd rfl hjs
  | unspecified | html => rfl

theorem Escaper.concat_html (ts : List Text) :
    Escaper.concat standardEscaper .html ts = (ts.map Segment.value).flatMap Segment.html := by
  rw [List.flatMap_map]
  rfl

theorem Part.allSegments_eq_flatMap (item : σ) (ps : List Part) :
    Part.allSegments r item ps = ps.flatMap (Part.segments r item) := by
  induction ps with
  | nil => rw [Part.allSegments, List.flatMap_nil]
  | cons p ps ih => rw [Part.allSegments, ih, List.flatMap_cons]

/-- **Every value is escaped once, and nothing else is changed.** -/
theorem Template.evaluate_html (h : t.HtmlOnly) (item : σ) :
    t.evaluate r standardEscaper .html item = (t.segments r item).flatMap Segment.html := by
  induction h generalizing item with
  | @mk t kinds inside ih =>
    unfold Template.evaluate Template.segments
    rw [Part.evaluateAll_eq_flatMap, Part.allSegments_eq_flatMap, List.flatMap_assoc]
    refine List.flatMap_congr fun part hpart => ?_
    cases part with
    | text content =>
      rw [Part.evaluate, Part.segments]
      exact (List.append_nil content).symm
    | var name own raw =>
      obtain ⟨htext, hjs⟩ := kinds name own raw hpart
      rw [Part.evaluate, Part.segments, EscapeKind.or_html htext hjs, Escaper.concat_html]
    | nested name form stamp body =>
      have hn : ⟨name, form, stamp, body⟩ ∈ t.nestedList := List.mem_filterMap.2 ⟨_, hpart, rfl⟩
      rw [Part.evaluate, Part.segments, List.flatMap_assoc]
      exact List.flatMap_congr fun x _ => ih _ hn x

end Evaluation

/-! ## Rendering -/

/-- Data is rendered as the evaluation of what it is as JSON. -/
theorem Session.renderData_eq_ok {t : Template} {escaper : Escaper} {kind : EscapeKind}
    {data : Datum} {out : Text} (ht : t.Parsed)
    (h : renderData ⟨.new t, escaper, kind⟩ data = .ok out) :
    ∃ j, data.toJson rootName = .ok j ∧ out = t.evaluate Json.reading escaper kind j := by
  unfold renderData seedData at h
  cases hj : data.toJson rootName with
  | error e =>
    rw [hj] at h
    cases h
  | ok j =>
    rw [hj] at h
    obtain ⟨s, hgrow, hcomplete, rfl⟩ := renderSeeded_eq_ok_iff.1 h
    refine ⟨j, rfl, ?_⟩
    rw [(State.render_of_grow ht.wellNamed hgrow hcomplete).2]
    exact (Template.evaluate_map Json.Node.maps_value).symm

namespace Engine

variable {e : Engine} {files : FileTree} {path : Text} {data : Datum} {t : Template} {out : Text}

/-- An engine that renders data loads the template and renders a session of it. -/
theorem renderData_of_load (hload : (e.load files path).1 = .ok t) (data : Datum) :
    (e.renderData files path data).1 =
      (Session.renderData ⟨.new t, e.escaper, e.kind⟩ data).mapError .bind := by
  unfold renderData
  cases hl : e.load files path with
  | mk r e' =>
    have hsession : e'.session t = ⟨.new t, e.escaper, e.kind⟩ := by
      cases hl
      rfl
    rw [hl] at hload
    cases hload
    unfold Session.renderData
    rw [← hsession]
    dsimp only
    cases (e'.session t).seedData data with
    | mk s answer => cases answer <;> rfl

/-- **Data adds no markup.** What an engine with the standard escaper and HTML as its kind renders
is made of the segments of the template for the data, in order: literal texts as they stand, and
texts of the data, each escaped on its own. What a text is escaped to is harmless. So delimiters
stand in the output exactly where literal texts have them. -/
theorem renderData_segments (hused : e.bench.Used) (hescaper : e.escaper = standardEscaper)
    (hkind : e.kind = .html) (hload : (e.load files path).1 = .ok t) (ht : t.HtmlOnly)
    (h : (e.renderData files path data).1 = .ok out) :
    ∃ j, data.toJson Session.rootName = .ok j ∧
      out = (t.segments Json.reading j).flatMap Segment.html ∧
      (∀ text, Escape.Harmless (Segment.value text).html text) ∧
      ∀ c ∈ Escape.delimiters,
        out.count c = (Segment.literals (t.segments Json.reading j)).count c := by
  have hparsed : t.Parsed := .load hused hload
  rw [renderData_of_load hload, mapError_eq_ok_iff, hescaper, hkind] at h
  obtain ⟨j, hj, rfl⟩ := Session.renderData_eq_ok hparsed h
  rw [Template.evaluate_html ht]
  exact ⟨j, hj, rfl, Escape.harmless_html, fun c hc => Segment.count_html hc _⟩

/-- An engine over one source, a page with two variables. -/
def ofPage : Engine where
  markers := .standard
  resolver := fun _ => {
    locate := fun path => .ok (some ⟨['m'], path⟩)
    read := fun _ => .ok (Text.toBytes "<i>~%x%</i>~%%begin:r%~%html:y%~%%end:r%".toList)
    reach := 0 }
  escaper := standardEscaper
  kind := .html
  bench := .ofCapacity 1

/-- What the page is parsed to. -/
def page : Template :=
  ⟨⟨1, some ⟨['m'], ['a']⟩⟩, [.text "<i>".toList, .var ['x'] .unspecified "~%x%".toList,
    .text "</i>".toList, .nested ['r'] (.inline "~%%begin:r%".toList "~%%end:r%".toList) ⟨2, none⟩
      [.var ['y'] .html "~%html:y%".toList]]⟩

/-- A text that looks like an entity, and two rows. -/
def pageData : Json :=
  .object [("x".toList, .text "&lt;<".toList), ("r".toList,
    .array [.object [("y".toList, .text "'".toList)], .object [("y".toList, .bool true)]])]

theorem load_page : (ofPage.load .empty ['a']).1 = .ok page := by
  have hp : (tokenize (ofPage.parser .empty).markers
      "<i>~%x%</i>~%%begin:r%~%html:y%~%%end:r%".toList).pieces =
      [.text "<i>".toList, .token ⟨.var ['x'], 3, "~%x%".toList, [], []⟩, .text "</i>".toList,
        .token ⟨.opens ['r'], 11, "~%%begin:r%".toList, [], []⟩,
        .token ⟨.var "html:y".toList, 22, "~%html:y%".toList, [], []⟩,
        .token ⟨.closes ['r'], 31, "~%%end:r%".toList, [], []⟩] := by
    decide
  have hread : (ofPage.parser .empty).readText ⟨['m'], ['a']⟩ =
      .ok "<i>~%x%</i>~%%begin:r%~%html:y%~%%end:r%".toList := by
    decide
  have hd : Draft.ofSource Markers.standard.ditch (Stamp.origin ⟨1, some ⟨['m'], ['a']⟩⟩)
      "<i>~%x%</i>~%%begin:r%~%html:y%~%%end:r%".toList =
        .ok ⟨Stamp.origin ⟨1, some ⟨['m'], ['a']⟩⟩,
          "<i>~%x%</i>~%%begin:r%~%html:y%~%%end:r%".toList,
          "<i>~%x%</i>~%%begin:r%~%html:y%~%%end:r%".toList, []⟩ := rfl
  have hload := Parser.loadId_of_missed (c := .ofCapacity 1) rfl true rfl hread 0 [] 1
  refine (congrArg Prod.fst hload).trans ?_
  rw [Cache.conclude_answer, Parser.on_parseWith_ok _ hd]
  dsimp only
  rw [hp]
  simp [level_text, level_token, LevelNames.judge, splitEnd, readVariable,
    Text.splitOnce, level_nil, LevelNames.uses, LevelNames.addVariable, LevelNames.empty,
    page, Token.raw]
  rfl

theorem htmlOnly_page : page.HtmlOnly := by
  have hrow : Template.HtmlOnly ⟨⟨2, none⟩, [.var ['y'] .html "~%html:y%".toList]⟩ := by
    refine .mk (fun name own raw hp => ?_) nofun
    cases List.mem_singleton.1 hp
    exact ⟨nofun, nofun⟩
  refine .mk (fun name own raw hp => ?_) fun n hn => ?_
  · simp only [page, List.mem_cons, reduceCtorEq, List.not_mem_nil, or_false, false_or] at hp
    cases hp
    exact ⟨nofun, nofun⟩
  · cases List.mem_singleton.1 hn
    exact hrow

/-- The entity and the quote are escaped, and the four delimiters are those of the page. -/
theorem renderData_segments_page :
    (ofPage.renderData .empty ['a'] (.json pageData)).1 =
        .ok "<i>&amp;lt;&lt;</i>&#x27;true".toList ∧
      ∃ j, (Datum.json pageData).toJson Session.rootName = .ok j ∧
        "<i>&amp;lt;&lt;</i>&#x27;true".toList =
          (page.segments Json.reading j).flatMap Segment.html ∧
        (∀ text, Escape.Harmless (Segment.value text).html text) ∧
        ∀ c ∈ Escape.delimiters, "<i>&amp;lt;&lt;</i>&#x27;true".toList.count c =
          (Segment.literals (page.segments Json.reading j)).count c := by
  have hrender : (ofPage.renderData .empty ['a'] (.json pageData)).1 =
      .ok "<i>&amp;lt;&lt;</i>&#x27;true".toList :=
    (renderData_of_load load_page _).trans (by decide +kernel)
  exact ⟨hrender, renderData_segments (.new 1) rfl rfl load_page htmlOnly_page hrender⟩

end Engine

end Stencil
