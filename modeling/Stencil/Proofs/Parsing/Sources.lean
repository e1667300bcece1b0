import Stencil.Template.Outline
import Stencil.Proofs.Cache.Entries
import Stencil.Proofs.Markup.Lossless

/-!
# The source of a parsed template

**Sources** (`Ensures.level_sources`). The parts of a level, put together again, are its pieces put
together: each piece becomes one part, in order, and an inline template keeps its two tags around
its own parts. So the source of a template is the text that was parsed, without ditch blocks.

**Serial numbers** (`Parsing.Draws`). Serial numbers never go back, and a step that reports an open
ditch block has drawn one: that of the source the block is in. By the number of draws an open
ditch block of a source is told from one in a source that it includes.

**Ditch words** (`parseAs_source`). Hence a parse is stopped by the ditch blocks of its own source
exactly if the ditch word occurs an odd number of times there.
-/

namespace Stencil

/-! ## Sources -/

namespace Parsing

variable {α β : Type} {d : Draft} {load : Text → Nat → Parsing Template}

theorem Ensures.trivial (x : Parsing α) : Ensures (fun _ => True) x fun _ => True :=
  fun _ _ => ⟨fun _ _ => True.intro, True.intro⟩

/-- **The parts of a level, put together, are its pieces put together.** -/
theorem Ensures.level_sources (names : LevelNames) (pieces : List Piece) :
    Ensures (fun _ => True) (level d load names pieces) fun parts =>
      Part.sources parts = pieces.flatMap Piece.raw := by
  induction names, pieces using level_induction with
  | nil names =>
    rw [level_nil]
    exact .pure rfl
  | text names content rest ih =>
    rw [level_text]
    exact .bind ih fun tail ht => .pure (congrArg (content ++ ·) ht)
  | fault names t rest f hj =>
    rw [level_token, hj]
    exact .throw _
  | var names t rest kind name hj ih =>
    rw [level_token, hj]
    exact .bind ih fun tail ht => .pure (congrArg (t.raw ++ ·) ht)
  | opens names t rest name inner c after hj ih₁ ih₂ =>
    rw [level_token, hj]
    obtain ⟨-, -, hs, -⟩ := LevelNames.judge_opens hj
    obtain ⟨rfl, -⟩ := splitEnd_eq_some hs
    refine .bind ih₁ fun body hb => .freshStamp_bind fun serial => .bind ih₂ fun tail ht => ?_
    refine .pure ?_
    simp [Part.sources, Part.source, Piece.raw, hb, ht]
  | includes names t rest name path hj ih =>
    rw [level_token, hj]
    refine .bind (.trivial _) fun template _ => .bind ih fun tail ht => ?_
    exact .pure (congrArg (t.raw ++ ·) ht)

end Parsing

theorem Draft.text_of_ofSource {ditch origin source : Text} {d : Draft}
    (h : Draft.ofSource ditch origin source = .ok d) :
    d.text = evenSegments (Text.splitOn ditch source) := by
  unfold Draft.ofSource Ditch.strip at h
  dsimp only at h
  rw [← kept_eq_evenSegments]
  by_cases hodd : (Text.splitOn ditch source).length % 2 = 0
  · rw [if_pos hodd] at h
    cases h
  · rw [if_neg hodd] at h
    cases h
    rfl

/-- The source of a template is the text it was parsed from, without its ditch blocks. -/
theorem Parsing.Ensures.parseWith_source {p : Parser} (hm : p.markers.Valid)
    (load : Draft → Text → Nat → Parsing Template) (id : Option SourceId) (source : Text) :
    Ensures (fun _ => True) (p.parseWith load id source) fun t =>
      t.source = evenSegments (Text.splitOn p.markers.ditch source) := by
  unfold Parser.parseWith
  refine .freshStamp_bind fun serial => .lift_bind fun d hd => ?_
  refine .bind (.level_sources _ _) fun parts hparts => .pure ?_
  show Part.sources parts = _
  rw [hparts, flatMap_raw_pieces hm, Draft.text_of_ofSource hd]

/-! ## Serial numbers -/

/-- The error is an open ditch block. -/
def LoadError.isDitch : LoadError → Bool
  | .parse e => e.fault = .ditchNotTerminated
  | .resolve _ => false
  | .endless => false

namespace Parsing

variable {α β : Type} {x : Parsing α} {k : α → Parsing β}

/-- Serial numbers do not go back. -/
def Grows (x : Parsing α) : Prop := ∀ b, b.2 ≤ (x.on b).2.2

/-- Serial numbers do not go back, and one was drawn if there is an open ditch block. -/
def Draws (x : Parsing α) : Prop :=
  ∀ b, b.2 ≤ (x.on b).2.2 ∧ ∀ e, (x.on b).1 = .error e → e.isDitch = true → b.2 < (x.on b).2.2

theorem Draws.grows (h : Draws x) : Grows x := fun b => (h b).1

theorem Grows.lift (r : Except LoadError α) : Grows (liftM r) := by
  intro b
  have hb : ((liftM r : Parsing α).on b).2.2 = b.2 := congrArg (fun x => x.2.2) (on_lift r b)
  exact Nat.le_of_eq hb.symm

theorem Grows.bind (hx : Grows x) (hk : ∀ a, Grows (k a)) : Grows (x >>= k) := by
  intro b
  have hb := hx b
  rw [on_bind]
  cases hr : x.on b with
  | mk r c =>
    rw [hr] at hb
    cases r with
    | ok a => exact Nat.le_trans hb (hk a c)
    | error e => exact hb

theorem Draws.pure (a : α) : Draws (pure a : Parsing α) :=
  fun _ => ⟨Nat.le_refl _, fun _ h => nomatch h⟩

theorem Draws.throw {e : LoadError} (h : e.isDitch = false) : Draws (throw e : Parsing α) := by
  refine fun b => ⟨Nat.le_refl _, fun e' he hd => ?_⟩
  cases he
  rw [h] at hd
  cases hd

theorem Draws.bind (hx : Draws x) (hk : ∀ a, Draws (k a)) : Draws (x >>= k) := by
  intro b
  obtain ⟨hb, hd⟩ := hx b
  rw [on_bind]
  cases hr : x.on b with
  | mk r c =>
    rw [hr] at hb hd
    cases r with
    | ok a => exact ⟨Nat.le_trans hb (hk a c).1, fun e he hed =>
        Nat.lt_of_le_of_lt hb ((hk a c).2 e he hed)⟩
    | error e =>
      refine ⟨hb, fun e' he hed => ?_⟩
      cases he
      exact hd e rfl hed

/-- After a draw, open ditch blocks may be reported. -/
theorem Draws.freshStamp_bind {source : Option SourceId} {k : Stamp → Parsing β}
    (hk : ∀ s, Grows (k s)) : Draws (freshStamp source >>= k) := by
  intro b
  have hb : b.2 < ((freshStamp source >>= k).on b).2.2 := hk ⟨b.2, source⟩ (b.1, b.2 + 1)
  exact ⟨Nat.le_of_lt hb, fun _ _ _ => hb⟩

theorem Draws.lift_bind {r : Except LoadError α} (hr : ∀ e, r = .error e → e.isDitch = false)
    (hk : ∀ a, Draws (k a)) : Draws (liftM r >>= k) := by
  cases r with
  | error e =>
    rw [lift_error_bind]
    exact .throw (hr e rfl)
  | ok a =>
    rw [lift_ok_bind]
    exact hk a

end Parsing

/-- No fault of a level is an open ditch block. -/
theorem LevelNames.judge_fault {names : LevelNames} {t : Token} {rest : List Piece} {f : Fault}
    (h : names.judge t rest = .fault f) : f ≠ .ditchNotTerminated := by
  grind [LevelNames.judge, readVariable]

/-- A lookup finds its key, or answers as the parse does. -/
theorem Cache.getOrParse_cases {κ ν ε τ : Type} [DecidableEq κ] (me : Thread) (key : κ)
    (parse : Cache κ ν × τ → Except ε ν × (Cache κ ν × τ)) (c : Cache κ ν) (rest : τ) :
    (∃ v c', Cache.getOrParse me key parse (c, rest) = (.ok v, (c', rest))) ∨
      ∃ c₁ c₂, (Cache.getOrParse me key parse (c, rest)) =
        ((parse (c₁, rest)).1, (c₂, (parse (c₁, rest)).2.2)) := by
  have hrun : ∀ (claimed : Bool) (c : Cache κ ν), ∃ c₂,
      Cache.conclude claimed key (parse (c, rest)) =
        ((parse (c, rest)).1, (c₂, (parse (c, rest)).2.2)) := by
    intro claimed c
    exact ⟨(Cache.conclude claimed key (parse (c, rest))).2.1,
      Prod.ext Cache.conclude_answer (Prod.ext rfl Cache.conclude_rest)⟩
  rw [Cache.getOrParse_eq]
  cases c.lookup me key with
  | mk outcome c' =>
    cases outcome with
    | hit v => exact .inl ⟨v, c', rfl⟩
    | claim => exact .inr ⟨c', hrun true c'⟩
    | alone => exact .inr ⟨c', hrun false c'⟩
    | wait => exact .inr ⟨c'.wake me, hrun false (c'.wake me)⟩

namespace Parsing

variable {p : Parser}

theorem Draws.level {d : Draft} {load : Text → Nat → Parsing Template}
    (h : ∀ path pos, Draws (load path pos)) (names : LevelNames) (pieces : List Piece) :
    Draws (level d load names pieces) := by
  induction names, pieces using level_induction with
  | nil names =>
    rw [level_nil]
    exact .pure _
  | text names content rest ih =>
    rw [level_text]
    exact .bind ih fun _ => .pure _
  | fault names t rest f hj =>
    rw [level_token, hj]
    exact .throw (decide_eq_false (LevelNames.judge_fault hj))
  | var names t rest kind name hj ih =>
    rw [level_token, hj]
    exact .bind ih fun _ => .pure _
  | opens names t rest name inner c after hj ih₁ ih₂ =>
    rw [level_token, hj]
    refine .bind ih₁ fun body => .freshStamp_bind fun stamp => ?_
    exact .bind ih₂.grows fun tail => (Draws.pure _).grows
  | includes names t rest name path hj ih =>
    rw [level_token, hj]
    exact .bind (h path t.pos) fun template => .bind ih fun tail => .pure _

theorem Draws.parseWith {load : Draft → Text → Nat → Parsing Template}
    (h : ∀ d path pos, Draws (load d path pos)) (id : Option SourceId) (source : Text) :
    Draws (p.parseWith load id source) := by
  unfold Parser.parseWith
  refine .freshStamp_bind fun stamp => .bind (.lift _) fun d => ?_
  exact .bind (Draws.level (h d) _ _).grows fun parts => (Draws.pure _).grows

theorem Draws.cached {parse : Parsing Template} (h : Draws parse) (id : SourceId) :
    Draws (p.cached id parse) := by
  unfold Parser.cached
  split
  · intro b
    obtain ⟨c, serial⟩ := b
    show serial ≤ (Cache.getOrParse 0 id (fun b => parse.run b) (c, serial)).2.2 ∧
      ∀ e, (Cache.getOrParse 0 id (fun b => parse.run b) (c, serial)).1 = .error e →
        e.isDitch = true → serial < (Cache.getOrParse 0 id (fun b => parse.run b) (c, serial)).2.2
    rcases Cache.getOrParse_cases 0 id (fun b => parse.run b) c serial with
      ⟨v, c', he⟩ | ⟨c₁, c₂, he⟩
    · rw [he]
      exact ⟨Nat.le_refl _, fun _ h => nomatch h⟩
    · rw [he]
      exact h (c₁, serial)
  · exact h

theorem Draws.loadIncluded {load : SourceId → Parsing Template} {stack : List SourceId}
    (h : ∀ id, Draws (load id)) (d : Draft) (path : Text) (pos : Nat) :
    Draws (p.loadIncluded load stack d path pos) := by
  refine .lift_bind (fun e he => ?_) fun id? => ?_
  · unfold Parser.locate at he
    split at he
    · cases he
    · cases he
      rfl
  · cases id? with
    | none => exact .throw rfl
    | some id =>
      show Draws (if stack.contains id then _ else _)
      split
      · exact .bind (.throw rfl) fun _ => h id
      · exact h id

theorem Draws.loadId (n : Nat) (stack : List SourceId) (id : SourceId) :
    Draws (p.loadId n stack id) := by
  induction n generalizing stack id with
  | zero => exact .throw rfl
  | succ n ih =>
    refine .cached (.lift_bind (fun e he => ?_) fun source => ?_) id
    · unfold Parser.readText at he
      split at he
      · cases he
        rfl
      · split at he
        · cases he
        · cases he
          rfl
    · exact .parseWith (fun d path pos => .loadIncluded (fun id => ih _ id) d path pos) _ _

end Parsing

/-! ## Ditch words -/

/-- Parses a text, anonymous or as the content of a source. -/
def Parser.parseAs (p : Parser) : Option SourceId → Text → Parsing Template
  | none, source => p.parseText source
  | some id, source => p.parseSource id source

/-- The parse was stopped by an open ditch block of its own source: nothing was drawn but the
serial number of its template, and the cache was not looked at. -/
def StoppedByDitch (id : Option SourceId) (b : Bench) (r : Except LoadError Template × Bench) :
    Prop :=
  ∃ pos, r = (.error (.parse ⟨.ditchNotTerminated, (Stamp.mk 0 id).origin, pos⟩), (b.1, b.2 + 1))

theorem Parser.parseAs_eq (p : Parser) (id : Option SourceId) (source : Text) :
    p.parseAs id source = p.parseWith p.loadFromTop id source := by
  cases id <;> rfl

/-- An even number of segments stops the parse at once. -/
theorem Parser.stoppedByDitch_of_even {p : Parser} {id : Option SourceId} {source : Text}
    (h : (Text.splitOn p.markers.ditch source).length % 2 = 0) (b : Bench) :
    StoppedByDitch id b ((p.parseAs id source).on b) := by
  have hd : ∃ pos, Draft.ofSource p.markers.ditch (Stamp.mk b.2 id).origin source =
      .error (.parse ⟨.ditchNotTerminated, (Stamp.mk 0 id).origin, pos⟩) := by
    unfold Draft.ofSource Ditch.strip
    simp only [h, if_true]
    exact ⟨_, rfl⟩
  obtain ⟨pos, hd⟩ := hd
  rw [parseAs_eq, on_parseWith_error _ hd]
  exact ⟨pos, rfl⟩

/-- An odd number of segments lets the parse go on. -/
theorem Parser.not_stoppedByDitch_of_odd {p : Parser} {id : Option SourceId} {source : Text}
    (h : (Text.splitOn p.markers.ditch source).length % 2 = 1) (b : Bench) :
    ¬ StoppedByDitch id b ((p.parseAs id source).on b) := by
  rintro ⟨pos, hstop⟩
  obtain ⟨r, hr⟩ := Ditch.strip_isOk_iff.2 h
  obtain ⟨text, cuts⟩ := r
  have hd : Draft.ofSource p.markers.ditch (Stamp.mk b.2 id).origin source =
      .ok ⟨(Stamp.mk b.2 id).origin, source, text, cuts⟩ := by
    unfold Draft.ofSource
    rw [hr]
  rw [parseAs_eq, on_parseWith_ok _ hd] at hstop
  have hdraws : Parsing.Draws (do
      let parts ← level ⟨(Stamp.mk b.2 id).origin, source, text, cuts⟩
        (p.loadFromTop ⟨(Stamp.mk b.2 id).origin, source, text, cuts⟩) .empty
        (tokenize p.markers text).pieces
      return (⟨⟨b.2, id⟩, parts⟩ : Template)) :=
    .bind (.level (fun path pos => .loadIncluded (.loadId _ _) _ path pos) _ _) fun _ => .pure _
  have hlt := (hdraws (b.1, b.2 + 1)).2 _ (congrArg Prod.fst hstop) rfl
  rw [hstop] at hlt
  exact Nat.lt_irrefl _ hlt

/-- **Sources come back.** There is one way to cut a source at the ditch word. The parse of the
source is stopped by its ditch blocks exactly if there is an odd number of cuts; if it succeeds,
the source of the template is the segments at even places, put together. -/
theorem Parser.parseAs_source {p : Parser} (hm : p.markers.Valid) (id : Option SourceId)
    (source : Text) (b : Bench) :
    ∃ segments, (∀ other, CutAt p.markers.ditch source other ↔ other = segments) ∧
      (StoppedByDitch id b ((p.parseAs id source).on b) ↔ (segments.length - 1) % 2 = 1) ∧
      ∀ t, ((p.parseAs id source).on b).1 = .ok t → t.source = evenSegments segments := by
  refine ⟨Text.splitOn p.markers.ditch source, fun other => ?_, ?_, fun t ht => ?_⟩
  · exact CutAt.iff_eq_splitOn (hm.get_ne_nil .ditch)
  · have hpos : 0 < (Text.splitOn p.markers.ditch source).length :=
      List.length_pos_iff.2 (Text.splitOnFrom_ne_nil _ 0 source)
    constructor
    · intro hstop
      by_cases hodd : (Text.splitOn p.markers.ditch source).length % 2 = 1
      · exact absurd hstop (not_stoppedByDitch_of_odd hodd b)
      · omega
    · intro hodd
      exact stoppedByDitch_of_even (by omega) b
  · rw [parseAs_eq] at ht
    exact (Parsing.Ensures.parseWith_source hm _ id source b True.intro).1 t ht

/-- A source with one ditch block. -/
theorem Parser.parseAs_source_block :
    Markers.standard.Valid ∧
      ∃ segments, (∀ other, CutAt Markers.standard.ditch "a<!--%%-->b<!--%%-->c".toList other ↔
          other = segments) ∧
        (StoppedByDitch none (.ofCapacity 0) ((Parser.parseAs ⟨.standard, .none, true⟩ none
            "a<!--%%-->b<!--%%-->c".toList).on (.ofCapacity 0)) ↔ (segments.length - 1) % 2 = 1) ∧
        ∀ t, ((Parser.parseAs ⟨.standard, .none, true⟩ none
            "a<!--%%-->b<!--%%-->c".toList).on (.ofCapacity 0)).1 = .ok t →
          t.source = evenSegments segments :=
  ⟨Markers.valid_standard, parseAs_source (p := ⟨.standard, .none, true⟩) Markers.valid_standard
    none "a<!--%%-->b<!--%%-->c".toList (.ofCapacity 0)⟩

end Stencil
