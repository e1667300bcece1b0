import Stencil.Proofs.Parsing.Adjacent
import Stencil.Proofs.Session.Meaning

/-!
# Dotted names

A dotted name leads where its beginning leads and from there where its end leads
(`Json.Node.resolve_append`).

**Templates with one name.** Growing a state for such a template binds that name. A variable comes to
the text of the value it finds (`State.grow_ofVariable`). An inline template with one item comes to
what its parts come to for that item (`State.grow_ofInline`).

**Main fact** (`Session.renderData_dotted`). So a variable with a dotted name and a variable with the
end of that name, inside an inline template with its beginning, come to the same, except for the
names under which they are reported.
-/

namespace Stencil

/-! ## Templates with one name -/

namespace Template

/-- A template that is one variable. -/
abbrev ofVariable (stamp : Stamp) (name raw : Text) : Template :=
  ⟨stamp, [.var name .unspecified raw]⟩

/-- A template that is an inline template around some parts. -/
abbrev ofInline (stamp inner : Stamp) (name : Text) (form : Form) (parts : List Part) : Template :=
  ⟨stamp, [.nested name form inner parts]⟩

variable {stamp inner : Stamp} {name raw : Text} {form : Form} {parts : List Part}

theorem hasVariable_ofVariable : (ofVariable stamp name raw).hasVariable name = true := by
  simp [hasVariable, Part.isVar]

theorem positions_ofVariable : (ofVariable stamp name raw).positions name = [0] := by
  simp [positions, positionsFrom, Part.isVar]

theorem nested?_ofInline : (ofInline stamp inner name form parts).nested? name =
    some ⟨name, form, ⟨inner, parts⟩⟩ := by
  simp [nested?, Part.isNested, Part.nested?]

end Template

namespace State

open Template

/-- What a grown state renders, where open names are reported behind a path. -/
def renderFrom (path : Text) (s : State) : Except BindError Text :=
  match s.firstUnresolvedFrom? path with
  | some name => .error (.session (.incomplete name))
  | none => .ok s.render

section Growing

variable {σ : Type} {accessor : Accessor σ} {escaper : Escaper} {kind : EscapeKind} {item : σ}
  {t : Template} {s : State} {name path raw : Text} {stamp inner : Stamp} {form : Form}
  {parts : List Part}

/-- A new level is not grown if one of its names cannot be bound. -/
theorem grow_eq_error {e : BindError}
    (h : bindNames (seedName accessor escaper kind t item) (.new t) t.names = (s, .error e)) :
    grow accessor escaper kind t none item = .error e := by
  rw [grow, Option.getD_none, h]

/-- A level with one name is grown by binding that name. -/
theorem grow_of_names_eq (h : t.names = [name]) :
    grow accessor escaper kind t none item = seedName accessor escaper kind t item (.new t) name := by
  have hopen : ¬ (State.new t).isResolved name = true := Bool.false_ne_true
  cases hs : seedName accessor escaper kind t item (.new t) name with
  | ok s =>
    refine (grow_eq_ok_iff none).2 ?_
    rw [Option.getD_none, h, bindNames, if_neg hopen, hs]
    rfl
  | error e =>
    refine grow_eq_error (s := .new t) ?_
    rw [h, bindNames, if_neg hopen, hs]

/-- On a level with one name, and that resolved, only repetitions have open names. -/
theorem firstUnresolvedFrom?_of_names_eq (h : s.template.names = [name])
    (hr : name ∈ s.resolved) (path : Text) : s.firstUnresolvedFrom? path =
      (s.childrenOf name).zipIdx.findSome? fun e =>
        e.1.firstUnresolvedFrom? (enter path name e.2) := by
  rw [firstUnresolvedFrom?_eq, h, List.findSome?_cons, isResolved, if_pos (List.contains_iff_mem.2 hr),
    List.findSome?_nil]
  split <;> simp [*]

/-- Setting the only variable of a level. -/
theorem setVariable_ofVariable {ts : List Text} (h : escaper.Takes kind ts) :
    (State.new (ofVariable stamp name raw)).setVariable escaper name ts kind =
      .ok ⟨ofVariable stamp name raw, [some (escaper.concat kind ts)], [], [name], []⟩ := by
  have hvariable : (State.new (ofVariable stamp name raw)).template.hasVariable name = true :=
    hasVariable_ofVariable
  have hpositions : (State.new (ofVariable stamp name raw)).template.positions name = [0] :=
    positions_ofVariable
  have hopen : ¬ (State.new (ofVariable stamp name raw)).isResolved name = true :=
    Bool.false_ne_true
  have hfill : fill escaper kind ts (ofVariable stamp name raw) name 0 =
      .ok (0, escaper.concat kind ts) := by
    have htakes : escaper.Takes (EscapeKind.unspecified.or kind) ts := h
    exact (fill_eq_ok_iff rfl).2 ⟨htakes, rfl⟩
  unfold setVariable
  rw [hvariable, Bool.not_true, if_neg Bool.false_ne_true, if_neg hopen, hpositions, List.mapM_cons,
    List.mapM_nil, show fill escaper kind ts (State.new _).template name 0 = _ from hfill]
  rfl

/-- **One variable** comes to the text of its value. -/
theorem grow_ofVariable {v : Value σ} (hask : accessor item name = .ok v)
    (htakes : ∀ ts, escaper.Takes kind ts) :
    grow accessor escaper kind (ofVariable stamp name raw) none item >>= renderFrom path =
      (fragmentsFor name v).mapError .access >>= fun fragments? =>
        fragments?.elim (.error (.session (.incomplete (path ++ name)))) fun ts =>
          .ok (escaper.concat kind ts) := by
  have hnames : (ofVariable stamp name raw).names = [name] := rfl
  rw [grow_of_names_eq hnames, seedName, bindName_of_variable hasVariable_ofVariable, hask]
  show ((fragmentsFor name v).mapError BindError.access >>= _) >>= renderFrom path = _
  cases fragmentsFor name v with
  | error e => rfl
  | ok fragments? =>
    cases fragments? with
    | none =>
      show renderFrom path (.new (ofVariable stamp name raw)) = _
      unfold renderFrom
      rw [firstUnresolvedFrom?_eq]
      rfl
    | some ts =>
      show (State.new (ofVariable stamp name raw)).setVariable escaper name ts kind >>=
        renderFrom path = .ok (escaper.concat kind ts)
      rw [setVariable_ofVariable (htakes ts), ok_bind]
      unfold renderFrom
      rw [firstUnresolvedFrom?_of_names_eq hnames (List.mem_singleton.2 rfl), render_eq]
      exact congrArg Except.ok (List.append_nil _)

/-- **An inline template with one item** comes to what its parts come to for that item. -/
theorem grow_ofInline {x : σ} (hask : accessor item name = .ok (.items [x])) :
    grow accessor escaper kind (ofInline stamp inner name form parts) none item >>= renderFrom path =
      grow accessor escaper kind ⟨inner, parts⟩ none x >>= renderFrom (enter path name 0) := by
  have hnames : (ofInline stamp inner name form parts).names = [name] := rfl
  rw [grow_of_names_eq hnames, seedName, bindName_of_nested rfl nested?_ofInline, hask]
  show (State.new (ofInline stamp inner name form parts)).populateWith ⟨name, form, ⟨inner, parts⟩⟩
    (grow accessor escaper kind ⟨inner, parts⟩ none) [x] none >>= renderFrom path = _
  rw [populateWith_eq_grown List.not_mem_nil fun k hk => absurd hk (by exact nofun)]
  show ([x].mapM (grow accessor escaper kind ⟨inner, parts⟩ none)).map _ >>= renderFrom path = _
  rw [List.mapM_cons, List.mapM_nil]
  cases grow accessor escaper kind ⟨inner, parts⟩ none x with
  | error e => rfl
  | ok c =>
    show renderFrom path (State.populated _ _ [c]) = renderFrom (enter path name 0) c
    have hchildren : ((State.new (ofInline stamp inner name form parts)).populated
        ⟨name, form, ⟨inner, parts⟩⟩ [c]).childrenOf name = [c] := by
      rw [childrenOf_populated, if_pos rfl]
    have hopen : ((State.new (ofInline stamp inner name form parts)).populated
        ⟨name, form, ⟨inner, parts⟩⟩ [c]).firstUnresolvedFrom? path =
          c.firstUnresolvedFrom? (enter path name 0) := by
      rw [firstUnresolvedFrom?_of_names_eq hnames (List.mem_singleton.2 rfl), hchildren]
      exact List.findSome?_singleton
    have hrender : ((State.new (ofInline stamp inner name form parts)).populated
        ⟨name, form, ⟨inner, parts⟩⟩ [c]).render = c.render := by
      rw [render_eq]
      show (State.childrenOf _ name).flatMap render ++ [] = _
      rw [hchildren, List.append_nil]
      exact List.append_nil _
    unfold renderFrom
    rw [hopen, hrender]

end Growing

end State

/-! ## Dotted names -/

namespace Session

open Json (Node)

/-- A session that seeds its root from data renders what is grown from the data. -/
theorem renderData_eq_grow {data : Datum} {j : Json} (hj : data.toJson rootName = .ok j)
    (t : Template) (escaper : Escaper) (kind : EscapeKind) :
    renderData ⟨.new t, escaper, kind⟩ data =
      State.grow Node.accessor escaper kind t none (Node.root j) >>= State.renderFrom [] := by
  cases hb : State.bindNames (State.seedName Node.accessor escaper kind t (Node.root j)) (.new t)
      t.names with
  | mk s r =>
    have hseed : seedData ⟨.new t, escaper, kind⟩ data = (⟨s, escaper, kind⟩, r) := by
      unfold seedData
      rw [hj]
      exact congrArg (fun x => (Session.mk x.1 escaper kind, x.2)) hb
    unfold renderData
    rw [hseed]
    cases r with
    | ok done =>
      rw [(State.grow_eq_ok_iff none).2 hb]
      rfl
    | error e =>
      rw [State.grow_eq_error hb]
      rfl

/-- Any texts can be escaped in a kind that is not open. -/
theorem takes_standardEscaper {kind : EscapeKind} (h : kind.isSpecified = true) (ts : List Text) :
    standardEscaper.Takes kind ts := by
  refine ⟨h, fun t _ => ?_⟩
  cases kind with
  | unspecified => cases h
  | text | html | js => exact ⟨_, rfl⟩

/-- The two answers are the same text, or an open name or a mismatch on both sides, whichever the
value calls for. -/
inductive Alike (kind : EscapeKind) (p q : Text) : Value Node → Except BindError Text →
    Except BindError Text → Prop
  /-- The text of a scalar. -/
  | text {v : Value Node} {ts : List Text} (scalar : v.toFragments? = some ts) :
      Alike kind p q v (.ok (standardEscaper.concat kind ts)) (.ok (standardEscaper.concat kind ts))
  /-- There is no value. -/
  | absent : Alike kind p q .absent (.error (.session (.incomplete (p ++ '.' :: q))))
      (.error (.session (.incomplete (State.enter [] p 0 ++ q))))
  /-- A list of items cannot be a text. -/
  | items (xs : List Node) :
      Alike kind p q (.items xs) (.error (.access (.mismatch (p ++ '.' :: q) .scalar .items)))
        (.error (.access (.mismatch q .scalar .items)))

/-- The name can stand in a tag, and in a variable without an escape kind. -/
structure TagName (name : Text) : Prop where
  nonempty : name ≠ []
  noCloser : '%' ∉ name
  noColon : ':' ∉ name
  oneLine : ∀ c ∈ name, Text.isBreak c = false

/-- Two names with a point between them are one. -/
theorem TagName.dotted {p q : Text} (hp : TagName p) (hq : TagName q) : TagName (p ++ '.' :: q) where
  nonempty := List.append_ne_nil_of_left_ne_nil hp.nonempty _
  noCloser := by
    simp only [List.mem_append, List.mem_cons, not_or]
    exact ⟨hp.noCloser, by decide, hq.noCloser⟩
  noColon := by
    simp only [List.mem_append, List.mem_cons, not_or]
    exact ⟨hp.noColon, by decide, hq.noColon⟩
  oneLine := by
    intro c hc
    rcases List.mem_append.1 hc with hc | hc
    · exact hp.oneLine c hc
    rcases List.mem_cons.1 hc with rfl | hc
    · decide
    · exact hq.oneLine c hc

section Reading

variable {p q : Text}

theorem TagName.token?_variableText (h : TagName p) (v : Text) :
    Markers.standard.token? (Markers.standard.variableText p ++ v) =
      some (.var p, Markers.standard.variableText p) := by
  show Markers.standard.token? ('~' :: '%' :: (p ++ ['%'] ++ v)) = _
  rw [List.append_assoc]
  exact Markers.token?_standard_var h.nonempty h.noCloser h.oneLine v

theorem TagName.token?_tagText (h : TagName p) {keyword : Text} (hne : keyword ≠ [])
    (hword : ∀ c ∈ keyword, isKeyword c = true) (v : Text) :
    Markers.standard.token? (Markers.standard.tagText keyword p ++ v) =
      some (.ofTag keyword p, Markers.standard.tagText keyword p) := by
  show Markers.standard.token? ('~' :: '%' :: '%' :: (keyword ++ ':' :: (p ++ ['%']) ++ v)) = _
  rw [List.append_assoc, List.cons_append, List.append_assoc]
  exact Markers.token?_standard_tag keyword hne hword h.noCloser h.oneLine v

theorem TagName.readVariable (h : TagName p) : readVariable p = .ok (.unspecified, p) := by
  have hread : Stencil.readVariable (Item.varBody .unspecified p) = .ok (.unspecified, p) :=
    Item.readVariable_varBody fun _ => h.noColon
  exact hread

/-- A variable of a name. -/
theorem parseText_variableText (h : TagName p) (resolver : Resolver) (caching : Bool) (b : Bench) :
    ((Parser.parseText ⟨.standard, resolver, caching⟩ (Markers.standard.variableText p)).on b).1 =
      .ok (.ofVariable ⟨b.2, none⟩ p (Markers.standard.variableText p)) := by
  have hread := h.token?_variableText []
  have hadjacent : Adjacent .standard [(.var p, Markers.standard.variableText p)] := ⟨hread, trivial⟩
  have hditch := hadjacent.noDitch_standard
  rw [bodies_singleton] at hditch
  rw [List.append_nil] at hread
  exact Parser.parseText_variable Markers.valid_standard hread hditch h.readVariable h.nonempty b

/-- An inline template of a name around a variable of another name. -/
theorem parseText_around (hp : TagName p) (hq : TagName q) (resolver : Resolver) (caching : Bool)
    (b : Bench) :
    ((Parser.parseText ⟨.standard, resolver, caching⟩ (Markers.standard.beginText p ++
        (Markers.standard.variableText q ++ Markers.standard.endText p))).on b).1 =
      .ok (.ofInline ⟨b.2, none⟩ ⟨b.2 + 1, none⟩ p
        (.inline (Markers.standard.beginText p) (Markers.standard.endText p))
        [.var q .unspecified (Markers.standard.variableText q)]) := by
  have hadjacent : Adjacent .standard ((.opens p, Markers.standard.beginText p) ::
      ([(.var q, Markers.standard.variableText q)] ++
        [(.closes p, Markers.standard.endText p)])) :=
    ⟨hp.token?_tagText (by decide) (List.all_eq_true.1 rfl) _, hq.token?_variableText _,
      hp.token?_tagText (by decide) (List.all_eq_true.1 rfl) [], trivial⟩
  have hparse := Parser.parseText_inline [(.var q, Markers.standard.variableText q)]
    [.var q .unspecified (Markers.standard.variableText q)]
    (p := ⟨.standard, resolver, caching⟩) Markers.valid_standard hadjacent
    hadjacent.noDitch_standard hp.nonempty (by simp)
    (Parser.on_level_variable hq.readVariable hq.nonempty) b
  rw [bodies_cons, bodies_append, bodies_singleton, bodies_singleton] at hparse
  exact hparse

end Reading

/-- **Dotted names compose.** A dotted name leads from a place where its beginning leads and from
there where its end leads, and nowhere if its beginning leads nowhere. So if there is an object at
`p`, a variable `p.q` and a variable `q` inside an inline template `p` come to the same for the data:
both to the same text, both to an open name, or both to a mismatch. -/
theorem renderData_dotted :
    (∀ (n : Node) (p q : Text), n.resolve (p ++ '.' :: q) = (n.resolve p).bind (·.resolve q) ∧
      Node.accessor n (p ++ '.' :: q) =
        (n.resolve p).elim (.ok .absent) fun c => Node.accessor c q) ∧
    ∀ p q, TagName p → TagName q → ∀ (resolver : Resolver) (caching : Bool) (b b' : Bench),
      ∃ flat nested,
        ((Parser.parseText ⟨.standard, resolver, caching⟩
          (Markers.standard.variableText (p ++ '.' :: q))).on b).1 = .ok flat ∧
        ((Parser.parseText ⟨.standard, resolver, caching⟩ (Markers.standard.beginText p ++
          (Markers.standard.variableText q ++ Markers.standard.endText p))).on b').1 = .ok nested ∧
        ∀ data j n fields kind, data.toJson rootName = .ok j → (Node.root j).resolve p = some n →
          n.value = .object fields → kind.isSpecified = true →
            Alike kind p q ((n.resolve q).elim .absent Node.toValue)
              (renderData ⟨.new flat, standardEscaper, kind⟩ data)
              (renderData ⟨.new nested, standardEscaper, kind⟩ data) := by
  have haccess : ∀ (n : Node) (p q : Text), Node.accessor n (p ++ '.' :: q) =
      (n.resolve p).elim (.ok .absent) fun c => Node.accessor c q := by
    intro n p q
    unfold Node.accessor
    rw [Node.resolve_append]
    cases n.resolve p <;> rfl
  refine ⟨fun n p q => ⟨n.resolve_append p q, haccess n p q⟩, fun p q hp hq resolver caching b b' =>
    ⟨_, _, parseText_variableText (hp.dotted hq) resolver caching b,
      parseText_around hp hq resolver caching b', ?_⟩⟩
  intro data j n fields kind hj hn hfields hkind
  have htakes := takes_standardEscaper hkind
  have hvalue : Node.accessor n q = .ok ((n.resolve q).elim .absent Node.toValue) := rfl
  have hobject : Node.accessor (Node.root j) p = .ok (.items [n]) := by
    unfold Node.accessor Node.toValue
    rw [hn, Option.elim_some, hfields]
  have hdotted : Node.accessor (Node.root j) (p ++ '.' :: q) =
      .ok ((n.resolve q).elim .absent Node.toValue) := by
    rw [haccess, hn]
    rfl
  rw [renderData_eq_grow hj, renderData_eq_grow hj, State.grow_ofVariable hdotted htakes,
    State.grow_ofInline hobject, State.grow_ofVariable hvalue htakes]
  cases (n.resolve q).elim .absent Node.toValue with
  | absent => exact .absent
  | items xs => exact .items xs
  | text | fragments | number | bool | null => exact .text rfl

/-- An object in an object. -/
def inside : Json := .object [("a".toList, .object [("b".toList, .text "<".toList)])]

/-- The text is found, and escaped, in either way. -/
theorem renderData_dotted_inside : TagName "a".toList ∧ TagName "b".toList ∧
    ∃ flat nested,
      ((Parser.parseText ⟨.standard, .none, true⟩ "~%a.b%".toList).on (.ofCapacity 0)).1 = .ok flat ∧
      ((Parser.parseText ⟨.standard, .none, true⟩ "~%%begin:a%~%b%~%%end:a%".toList).on
        (.ofCapacity 0)).1 = .ok nested ∧
      renderData ⟨.new flat, standardEscaper, .html⟩ (.json inside) = .ok "&lt;".toList ∧
      renderData ⟨.new nested, standardEscaper, .html⟩ (.json inside) = .ok "&lt;".toList := by
  have ha : TagName "a".toList := ⟨by decide, by decide, by decide, Item.forall_isBreak rfl⟩
  have hb : TagName "b".toList := ⟨by decide, by decide, by decide, Item.forall_isBreak rfl⟩
  obtain ⟨flat, nested, hflat, hnested, halike⟩ := renderData_dotted.2 "a".toList "b".toList ha hb
    .none true (.ofCapacity 0) (.ofCapacity 0)
  have hinside : Alike .html "a".toList "b".toList (.text "<".toList)
      (renderData ⟨.new flat, standardEscaper, .html⟩ (.json inside))
      (renderData ⟨.new nested, standardEscaper, .html⟩ (.json inside)) :=
    halike (.json inside) inside ⟨[0], .object [("b".toList, .text "<".toList)]⟩ _ .html rfl rfl rfl
      rfl
  refine ⟨ha, hb, flat, nested, hflat, hnested, ?_⟩
  generalize renderData ⟨.new flat, standardEscaper, .html⟩ (.json inside) = x at hinside ⊢
  generalize renderData ⟨.new nested, standardEscaper, .html⟩ (.json inside) = y at hinside ⊢
  cases hinside with
  | text hscalar =>
    cases hscalar
    exact ⟨rfl, rfl⟩

end Session

end Stencil
