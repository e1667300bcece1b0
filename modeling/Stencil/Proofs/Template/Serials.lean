import Stencil.Proofs.Parsing.Sources
import Stencil.Proofs.Template.Names
import Mathlib.Data.List.Pairwise

/-!
# The serial numbers of a parsed template

**Numbers apart** (`Template.Numbered`). On every level, the templates without a source have
different serial numbers. Nested templates of one level that are told to be the same therefore come
from one source (`Template.SerialsApart.source_of_id_eq`).

**Steps** (`Parsing.Spans`). What a step answers is described together with the serial numbers
before and after it: an inline template has a number that was drawn on its level, and numbers are
never drawn again. What is loaded, from the cache or not, always has a source.

**Parsed templates** (`Template.Parsed.numbered`). Hence the numbers are apart in every template
that a parser gives.

**Inline templates** (`Template.Parsed.inlineAnonymous`). These have no source. So nested templates of
a level that are told to be the same are included, both from one source
(`Template.Parsed.included_of_id_eq`).
-/

namespace Stencil

namespace Template

variable {t : Template}

/-- Two nested templates do not share the number of a template without a source. -/
def SerialApart (n m : Nested) : Prop :=
  n.template.stamp.source = none → m.template.stamp.source = none →
    n.template.stamp.serial ≠ m.template.stamp.serial

/-- The nested templates of a level do not share numbers of templates without a source. -/
def SerialsApart (t : Template) : Prop := t.nestedList.Pairwise SerialApart

/-- Numbers are apart on every level. -/
inductive Numbered : Template → Prop
  | mk {t : Template} (apart : t.SerialsApart) (inside : ∀ n ∈ t.nestedList, Numbered n.template) :
      Numbered t

theorem Numbered.apart (h : t.Numbered) : t.SerialsApart := by
  cases h
  assumption

theorem Numbered.inside (h : t.Numbered) : ∀ n ∈ t.nestedList, n.template.Numbered := by
  cases h
  assumption

/-- **Nested templates of a level that are the same come from one source**, unless they are one. -/
theorem SerialsApart.source_of_id_eq (h : t.SerialsApart) {n m : Nested} (hn : n ∈ t.nestedList)
    (hm : m ∈ t.nestedList) (hne : n ≠ m) (hid : n.template.id = m.template.id) :
    ∃ id, n.template.stamp.source = some id ∧ m.template.stamp.source = some id := by
  have hsymm : Std.Symm SerialApart := ⟨fun n m hnm hm hn he => hnm hn hm he.symm⟩
  have hnm : SerialApart n m := List.Pairwise.forall h hn hm hne
  unfold Template.id Stamp.id at hid
  cases hsn : n.template.stamp.source with
  | none =>
    cases hsm : m.template.stamp.source with
    | none =>
      rw [hsn, hsm] at hid
      exact absurd (TemplateId.anonymous.inj hid) (hnm hsn hsm)
    | some id =>
      rw [hsn, hsm] at hid
      cases hid
  | some id =>
    cases hsm : m.template.stamp.source with
    | none =>
      rw [hsn, hsm] at hid
      cases hid
    | some id' =>
      rw [hsn, hsm] at hid
      exact ⟨id, rfl, congrArg some (TemplateId.source.inj hid).symm⟩

end Template

/-! ## Numbers in a span -/

/-- The templates without a source have different numbers, all of them between two numbers. -/
structure SerialsIn (lo hi : Nat) (ns : List Nested) : Prop where
  within : ∀ n ∈ ns, n.template.stamp.source = none →
    lo ≤ n.template.stamp.serial ∧ n.template.stamp.serial < hi
  apart : ns.Pairwise Template.SerialApart
  inside : ∀ n ∈ ns, n.template.Numbered

namespace SerialsIn

variable {lo lo' hi : Nat} {ns : List Nested} {n : Nested}

theorem nil : SerialsIn lo hi [] :=
  ⟨fun _ h => absurd h List.not_mem_nil, .nil, fun _ h => absurd h List.not_mem_nil⟩

theorem mono (h : SerialsIn lo hi ns) (hlo : lo' ≤ lo) : SerialsIn lo' hi ns where
  within := fun n hn hs => ⟨Nat.le_trans hlo (h.within n hn hs).1, (h.within n hn hs).2⟩
  apart := h.apart
  inside := h.inside

/-- A template with a source has no part in this. -/
theorem cons_source (h : SerialsIn lo hi ns) (hs : n.template.stamp.source.isSome = true)
    (hn : n.template.Numbered) : SerialsIn lo hi (n :: ns) where
  within := by
    intro m hm hnone
    rcases List.mem_cons.1 hm with rfl | hm
    · rw [hnone] at hs
      cases hs
    · exact h.within m hm hnone
  apart := by
    refine List.pairwise_cons.2 ⟨fun m _ hnone => ?_, h.apart⟩
    rw [hnone] at hs
    cases hs
  inside := List.forall_mem_cons.2 ⟨hn, h.inside⟩

/-- A template without a source takes a number before all others. -/
theorem cons_serial (h : SerialsIn (n.template.stamp.serial + 1) hi ns)
    (hlo : lo ≤ n.template.stamp.serial) (hhi : n.template.stamp.serial < hi)
    (hn : n.template.Numbered) : SerialsIn lo hi (n :: ns) where
  within := by
    intro m hm hnone
    rcases List.mem_cons.1 hm with rfl | hm
    · exact ⟨hlo, hhi⟩
    · have := h.within m hm hnone
      exact ⟨by omega, this.2⟩
  apart := by
    refine List.pairwise_cons.2 ⟨fun m hm _ hnone he => ?_, h.apart⟩
    have := (h.within m hm hnone).1
    omega
  inside := List.forall_mem_cons.2 ⟨hn, h.inside⟩

theorem numbered {parts : List Part} (h : SerialsIn lo hi (parts.filterMap Part.nested?))
    (stamp : Stamp) : (Template.mk stamp parts).Numbered := .mk h.apart h.inside

end SerialsIn

/-! ## Steps -/

namespace Parsing

variable {α β : Type} {inv : Cache SourceId Template → Prop} {good : Nat → Nat → α → Prop}
  {fine : Nat → Nat → β → Prop} {x : Parsing α} {k : α → Parsing β}

/-- On every bench whose cache has a property, the step leaves such a cache and takes no number
back, and what it answers is right for the next numbers before and after it. -/
def Spans (inv : Cache SourceId Template → Prop) (x : Parsing α) (good : Nat → Nat → α → Prop) :
    Prop :=
  ∀ b, inv b.1 → b.2 ≤ (x.on b).2.2 ∧ inv (x.on b).2.1 ∧
    ∀ a, (x.on b).1 = .ok a → good b.2 (x.on b).2.2 a

theorem Spans.pure {a : α} (h : ∀ n, good n n a) : Spans inv (pure a) good := by
  refine fun b hb => ⟨Nat.le_refl _, hb, fun a' ha => ?_⟩
  cases ha
  exact h b.2

theorem Spans.throw (e : LoadError) : Spans inv (throw e) good :=
  fun _ hb => ⟨Nat.le_refl _, hb, fun _ h => nomatch h⟩

theorem Spans.bind (hx : Spans inv x good) (hk : ∀ a, Spans inv (k a) fun mid hi c =>
    ∀ lo, lo ≤ mid → good lo mid a → fine lo hi c) : Spans inv (x >>= k) fine := by
  intro b hb
  obtain ⟨hle, hinv, hgood⟩ := hx b hb
  rw [on_bind]
  cases hr : x.on b with
  | mk r c =>
    rw [hr] at hle hinv hgood
    cases r with
    | ok a =>
      obtain ⟨hle', hinv', hfine⟩ := hk a c hinv
      exact ⟨Nat.le_trans hle hle', hinv', fun d hd => hfine d hd b.2 hle (hgood a rfl)⟩
    | error e => exact ⟨hle, hinv, fun _ h => nomatch h⟩

/-- A drawn number is the next one. -/
theorem Spans.freshStamp_bind {source : Option SourceId} {k : Stamp → Parsing β}
    (hk : ∀ serial, Spans inv (k ⟨serial, source⟩) fun mid hi c =>
      mid = serial + 1 → fine serial hi c) : Spans inv (freshStamp source >>= k) fine := by
  intro b hb
  obtain ⟨hle, hinv, hfine⟩ := hk b.2 (b.1, b.2 + 1) hb
  exact ⟨Nat.le_of_succ_le hle, hinv, fun c hc => hfine c hc rfl⟩

/-- A step that draws and answers in any way it likes. -/
theorem Spans.of_ensures {right : α → Prop} (h : Ensures inv x right) (hg : Grows x) :
    Spans inv x fun _ _ a => right a :=
  fun b hb => ⟨hg b, (h b hb).2, (h b hb).1⟩

/-- A step whose answer is right whatever was drawn. -/
theorem Ensures.of_spans {right : α → Prop} (h : Spans inv x good)
    (hr : ∀ lo hi a, good lo hi a → right a) : Ensures inv x right :=
  fun b hb => ⟨fun a ha => hr _ _ a ((h b hb).2.2 a ha), (h b hb).2.1⟩

/-- The template has numbers apart and comes from a source. -/
def Sourced (t : Template) : Prop := t.Numbered ∧ t.stamp.source.isSome = true

/-- **The inline templates of a level have numbers that are drawn on it.** -/
theorem Spans.level {d : Draft} {load : Text → Nat → Parsing Template}
    (h : ∀ path pos, Spans inv (load path pos) fun _ _ t => Sourced t)
    (names : LevelNames) (pieces : List Piece) :
    Spans inv (level d load names pieces) fun lo hi parts =>
      SerialsIn lo hi (parts.filterMap Part.nested?) := by
  induction names, pieces using level_induction with
  | nil names =>
    rw [level_nil]
    exact .pure fun _ => .nil
  | text names content rest ih =>
    rw [level_text]
    exact .bind ih fun tail => .pure fun _ lo _ ht => ht
  | fault names t rest f hj =>
    rw [level_token, hj]
    exact .throw _
  | var names t rest kind name hj ih =>
    rw [level_token, hj]
    exact .bind ih fun tail => .pure fun _ lo _ ht => ht
  | opens names t rest name inner c after hj ih₁ ih₂ =>
    rw [level_token, hj]
    refine .bind ih₁ fun body => .freshStamp_bind fun serial => .bind ih₂ fun tail => .pure ?_
    intro hi mid hmid ht hserial lo hlo hb
    subst hserial
    exact ht.cons_serial hlo (Nat.lt_of_succ_le hmid) (hb.numbered _)
  | includes names t rest name path hj ih =>
    rw [level_token, hj]
    refine .bind (h path t.pos) fun template => .bind ih fun tail => .pure ?_
    intro hi mid _ ht lo hlo htemplate
    exact (ht.mono hlo).cons_source htemplate.2 htemplate.1

/-- A source has numbers apart, and it is the source of its template. -/
theorem Ensures.parseWith_numbered {p : Parser} {load : Draft → Text → Nat → Parsing Template}
    (h : ∀ d path pos, Ensures inv (load d path pos) Sourced)
    (hg : ∀ d path pos, Grows (load d path pos)) (id : Option SourceId) (source : Text) :
    Ensures inv (p.parseWith load id source) fun t => t.Numbered ∧ t.stamp.source = id := by
  unfold Parser.parseWith
  refine .freshStamp_bind fun serial => .lift_bind fun d _ => ?_
  have hlevel : Ensures inv (level d (load d) .empty (tokenize p.markers d.text).pieces)
      fun parts => (Template.mk ⟨serial, id⟩ parts).Numbered :=
    .of_spans (.level (fun path pos => .of_ensures (h d path pos) (hg d path pos)) _ _)
      fun lo hi parts hparts => hparts.numbered _
  exact .bind hlevel fun parts hparts => .pure ⟨hparts, rfl⟩

/-- What a source is loaded as has numbers apart, and a source. -/
theorem Ensures.loadId_sourced {p : Parser} (n : Nat) (stack : List SourceId) (id : SourceId) :
    Ensures (Cache.Holds (fun _ => Sourced) 0) (p.loadId n stack id) Sourced := by
  induction n generalizing stack id with
  | zero => exact .throw _
  | succ n ih =>
    refine Runs.cached ?_ (fun t h => h t rfl) fun t h t' he => ?_
    · show Ensures _ _ _
      refine .lift_bind fun source _ => ?_
      refine Ensures.imp (.parseWith_numbered (fun d path pos => ?_) (fun d path pos => ?_) _ _)
        fun t ⟨hnumbered, hsource⟩ => ⟨hnumbered, by rw [hsource]; rfl⟩
      · exact .loadIncluded (fun id => ih _ id) d path pos
      · exact (Draws.loadIncluded (fun id => .loadId n _ id) d path pos).grows
    · cases he
      exact h

theorem Ensures.load_sourced {p : Parser} (path : Text) :
    Ensures (Cache.Holds (fun _ => Sourced) 0) (p.load path) Sourced := by
  refine .lift_bind fun id? _ => ?_
  cases id? with
  | none => exact .throw _
  | some id => exact .loadId_sourced _ _ id

theorem Ensures.parseAs_numbered {p : Parser} (id : Option SourceId) (source : Text) :
    Ensures (Cache.Holds (fun _ => Sourced) 0) (p.parseAs id source) fun t =>
      t.Numbered ∧ t.stamp.source = id := by
  rw [Parser.parseAs_eq]
  exact .parseWith_numbered (fun d path pos => .loadIncluded (.loadId_sourced _ _) d path pos)
    (fun d path pos => (Draws.loadIncluded (.loadId _ _) d path pos).grows) _ _

end Parsing

/-! ## What parsers give -/

/-- Every cached template has numbers apart, and a source. -/
theorem Bench.Used.sourced {b : Bench} (h : b.Used) :
    Cache.Holds (fun _ => Parsing.Sourced) 0 b.1 := by
  induction h with
  | new capacity => exact .ofCapacity capacity
  | load p path _ ih => exact (Parsing.Ensures.load_sourced path _ ih).2
  | parseText p source _ ih => exact (Parsing.Ensures.parseAs_numbered none source _ ih).2
  | parseSource p id source _ ih => exact (Parsing.Ensures.parseAs_numbered (some id) source _ ih).2
  | invalidate id _ ih => exact ih.invalidate id
  | clear _ ih => exact ih.clear

/-- **Numbers are apart on every level of a template that a parser gives.** -/
theorem Template.Parsed.numbered {t : Template} (h : t.Parsed) : t.Numbered := by
  induction h with
  | load hb h => exact ((Parsing.Ensures.load_sourced _ _ hb.sourced).1 _ h).1
  | parseText hb h => exact ((Parsing.Ensures.parseAs_numbered none _ _ hb.sourced).1 _ h).1
  | parseSource hb h => exact ((Parsing.Ensures.parseAs_numbered (some _) _ _ hb.sourced).1 _ h).1
  | nested _ hn ih => exact ih.inside _ hn

/-! ## Inline templates -/

/-- A nested template that is inline has no source. -/
def Nested.InlineAnonymous (n : Nested) : Prop :=
  ∀ opener closer, n.form = .inline opener closer → n.template.stamp.source = none

/-- On every level inline templates have no source. -/
inductive Template.InlineAnonymous : Template → Prop
  | mk {t : Template} (level : ∀ n ∈ t.nestedList, n.InlineAnonymous)
      (inside : ∀ n ∈ t.nestedList, InlineAnonymous n.template) : InlineAnonymous t

theorem Template.InlineAnonymous.level {t : Template} (h : t.InlineAnonymous) :
    ∀ n ∈ t.nestedList, n.InlineAnonymous := by
  cases h
  assumption

theorem Template.InlineAnonymous.inside {t : Template} (h : t.InlineAnonymous) :
    ∀ n ∈ t.nestedList, n.template.InlineAnonymous := by
  cases h
  assumption

/-- The stamp of an inline template is drawn without a source. -/
theorem Parsing.Ensures.level_inlineAnonymous {inv : Cache SourceId Template → Prop} {d : Draft}
    {load : Text → Nat → Parsing Template}
    (h : ∀ path pos, Ensures inv (load path pos) Template.InlineAnonymous) (names : LevelNames)
    (pieces : List Piece) :
    Ensures inv (level d load names pieces) fun parts =>
      ∀ n ∈ parts.filterMap Part.nested?, n.InlineAnonymous ∧ n.template.InlineAnonymous := by
  induction names, pieces using level_induction with
  | nil names =>
    rw [level_nil]
    exact .pure fun _ hn => nomatch hn
  | text names content rest ih =>
    rw [level_text]
    exact .bind ih fun _ hp => .pure hp
  | fault names t rest f hj =>
    rw [level_token, hj]
    exact .throw _
  | var names t rest kind name hj ih =>
    rw [level_token, hj]
    exact .bind ih fun _ hp => .pure hp
  | opens names t rest name inner c after hj ih₁ ih₂ =>
    rw [level_token, hj]
    refine .bind ih₁ fun body hb => .freshStamp_bind fun serial => .bind ih₂ fun tail ht => ?_
    refine .pure fun n hn => ?_
    rcases List.mem_cons.1 hn with rfl | hn
    · exact ⟨fun _ _ _ => rfl, .mk (fun m hm => (hb m hm).1) fun m hm => (hb m hm).2⟩
    · exact ht n hn
  | includes names t rest name path hj ih =>
    rw [level_token, hj]
    refine .bind (h path t.pos) fun template hw => .bind ih fun tail ht => ?_
    refine .pure fun n hn => ?_
    rcases List.mem_cons.1 hn with rfl | hn
    · exact ⟨nofun, hw⟩
    · exact ht n hn

theorem Parser.hereditary_inlineAnonymous (p : Parser) :
    p.Hereditary Template.InlineAnonymous := by
  intro inv load id source h
  unfold Parser.parseWith
  refine .freshStamp_bind fun serial => .lift_bind fun d _ => ?_
  refine .bind (.level_inlineAnonymous (h d) _ _) fun parts hp => .pure ?_
  exact .mk (fun n hn => (hp n hn).1) fun n hn => (hp n hn).2

namespace Template.Parsed

variable {t : Template} {n m : Nested}

/-- **Inline templates have no source**, in a template that a parser gives. -/
theorem inlineAnonymous (h : t.Parsed) : t.InlineAnonymous :=
  h.of_hereditary Parser.hereditary_inlineAnonymous fun _ ht => ht.inside

/-- **Nested templates of a level that are the same are included from one source.** -/
theorem included_of_id_eq (h : t.Parsed) (hn : n ∈ t.nestedList) (hm : m ∈ t.nestedList)
    (hne : n ≠ m) (hid : n.template.id = m.template.id) :
    ∃ id, n.template.stamp.source = some id ∧ m.template.stamp.source = some id ∧
      (∃ path raw, n.form = .included path raw) ∧ ∃ path raw, m.form = .included path raw := by
  obtain ⟨id, hsn, hsm⟩ := h.numbered.apart.source_of_id_eq hn hm hne hid
  have hform : ∀ k ∈ t.nestedList, k.template.stamp.source = some id →
      ∃ path raw, k.form = .included path raw := by
    intro k hk hs
    cases hf : k.form with
    | included path raw => exact ⟨path, raw, rfl⟩
    | inline opener closer =>
      rw [h.inlineAnonymous.level k hk opener closer hf] at hs
      cases hs
  exact ⟨id, hsn, hsm, hform n hn hsn, hform m hm hsm⟩

end Template.Parsed

end Stencil
