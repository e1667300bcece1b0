import Stencil.Proofs.Cache.Transparency
import Stencil.Proofs.Parsing.Sources
import Stencil.Proofs.Parsing.Trees

/-!
# Includes end, and cycles are reported

**Chains** (`Parser.Chain`). A cycle of includes is reported with the sources that lead to it, each
of which includes the next, and with the one of them that comes again. `plainId_includeCycle` goes
down the stack of includes: whatever is below the report is a chain already.

**Benches that served one parser** (`Bench.Served`). All entries of such a bench are good, whichever
of the parser's requests failed.

**Loading** (`Parser.load_ends`). Hence, if the sources that can be reached are no more than the
resolver may chain, loading ends. It gives a template only if there is no cycle in reach; an
included template is then what its path leads to. And a reported cycle is one.
-/

namespace Stencil

open Relation

/-! ## Chains -/

/-- No fault of a level is a cycle of includes. -/
theorem LevelNames.judge_ne_includeCycle {names : LevelNames} {t : Token} {rest : List Piece}
    {chain : List Text} : names.judge t rest ≠ .fault (.includeCycle chain) := by
  grind [LevelNames.judge, readVariable]

namespace Parser

variable {p : Parser} {stack : List SourceId} {id : SourceId} {n : Nat} {chain : List Text}
  {origin : Text} {pos : Position}

/-- The shown sources lead from one source to another that is among them: each includes the next,
and all but the last are distinct. -/
def Chain (p : Parser) (root : SourceId) (chain : List Text) : Prop :=
  ∃ ids last, chain = (ids ++ [last]).map SourceId.text ∧ ids.head? = some root ∧
    List.IsChain p.Includes (ids ++ [last]) ∧ ids.Nodup ∧ last ∈ ids

/-- A text fails with a cycle where an include of it leads onto the stack, or into a source that
fails so. -/
theorem plainWith_includeCycle {load : SourceId → Except LoadError Template}
    {of : Option SourceId} {source : Text}
    (h : p.plainWith (p.plainIncluded load stack) of source =
      .error (.parse ⟨.includeCycle chain, origin, pos⟩)) :
    ∃ b, p.Mentions source b ∧
      ((b ∈ stack ∧ chain = (stack ++ [b]).map SourceId.text) ∨
        (b ∉ stack ∧ load b = .error (.parse ⟨.includeCycle chain, origin, pos⟩))) := by
  rcases bind_eq_error h with h | ⟨d, hd, h⟩
  · unfold Draft.ofSource at h
    split at h <;> cases h
  rcases bind_eq_error h with h | ⟨_, _, h⟩
  · rcases plainLevel_error _ _ h with ⟨_, _, _, f, hf, he⟩ | ⟨path, hpath, pos', hl⟩
    · cases he
      exact absurd hf LevelNames.judge_ne_includeCycle
    rw [← pathsIn_eq hd] at hpath
    cases hloc : p.locate path with
    | error e =>
      unfold plainIncluded at hl
      rw [hloc] at hl
      cases hl
      unfold locate at hloc
      split at hloc <;> cases hloc
    | ok id? =>
      cases id? with
      | none =>
        unfold plainIncluded at hl
        rw [hloc] at hl
        cases hl
      | some b =>
        refine ⟨b, ⟨path, hpath, hloc⟩, ?_⟩
        rw [plainIncluded_some hloc] at hl
        split at hl
        · rename_i hb
          cases hl
          exact .inl ⟨hb, rfl⟩
        · rename_i hb
          exact .inr ⟨hb, hl⟩
  · cases h

/-- **A cycle is reported with the stack, and with a chain of includes from there that runs into
itself.** -/
theorem plainId_includeCycle (hs : (stack ++ [id]).Nodup)
    (h : p.plainId n stack id = .error (.parse ⟨.includeCycle chain, origin, pos⟩)) :
    ∃ more last, chain = (stack ++ id :: more ++ [last]).map SourceId.text ∧
      List.IsChain p.Includes (id :: more ++ [last]) ∧ (stack ++ id :: more).Nodup ∧
      last ∈ stack ++ id :: more := by
  induction n generalizing stack id with
  | zero => cases h
  | succ n ih =>
    rcases bind_eq_error h with h | ⟨source, hr, h⟩
    · unfold readText at h
      split at h
      · cases h
      · split at h <;> cases h
    obtain ⟨b, hm, ⟨hb, rfl⟩ | ⟨hb, h⟩⟩ := plainWith_includeCycle h
    · refine ⟨[], b, rfl, ?_, hs, hb⟩
      exact .cons_cons ⟨source, hr, hm⟩ (.singleton b)
    · have hs' : (stack ++ [id] ++ [b]).Nodup := by
        refine List.nodup_append.2 ⟨hs, List.nodup_singleton b, ?_⟩
        rintro a ha _ hab rfl
        rw [List.mem_singleton.1 hab] at ha
        exact hb ha
      obtain ⟨more, last, hchain, hinc, hnodup, hlast⟩ := ih hs' h
      have happend : stack ++ [id] ++ b :: more = stack ++ id :: b :: more := by simp
      rw [happend] at hchain hnodup hlast
      exact ⟨b :: more, last, hchain, .cons_cons ⟨source, hr, hm⟩ hinc, hnodup, hlast⟩

/-- A source parses only if all that it leads to is in no cycle of includes. -/
theorem acyclic_of_reflTransGen {t : Template} (h : p.plainId n stack id = .ok t) {a : SourceId}
    (ha : ReflTransGen p.Includes id a) : ¬ TransGen p.Includes a a := by
  induction ha using ReflTransGen.head_induction_on generalizing n stack t with
  | refl => exact acyclic_of_plainId h
  | head hb _ ih =>
    cases n with
    | zero => cases h
    | succ n =>
      obtain ⟨-, t', ht⟩ := plainId_ok h hb
      exact ih ht

end Parser

/-! ## Benches that served one parser -/

/-- The benches that a parser comes to which is only asked for sources in a set. -/
inductive Bench.Served (p : Parser) (on : SourceId → Prop) : Bench → Prop
  | new (capacity : Nat) : Served p on (.ofCapacity capacity)
  | load {b : Bench} (path : Text) (h : ∀ id, p.locate path = .ok (some id) → on id) :
      Served p on b → Served p on ((p.load path).on b).2
  | parse {b : Bench} (id : Option SourceId) (source : Text)
      (h : ∀ id, p.Mentions source id → on id) :
      Served p on b → Served p on ((p.parseAs id source).on b).2
  | get {b : Bench} (id : SourceId) : Served p on b → Served p on ((b.1.get id).2, b.2)
  | invalidate {b : Bench} (id : SourceId) :
      Served p on b → Served p on ((b.1.invalidate id).2, b.2)
  | clear {b : Bench} : Served p on b → Served p on (b.1.clear, b.2)

theorem Parsing.Yields.parseAs {p : Parser} {on : SourceId → Prop} (hp : p.Bounded on)
    (id : Option SourceId) {source : Text} (h : ∀ id, p.Mentions source id → on id) :
    Yields (Cache.Holds p.IsParseOf 0) Template.unnumbered (p.parseAs id source)
      (p.plainWith (p.plainIncluded (p.plainId p.depth []) []) id source) := by
  rw [Parser.parseAs_eq]
  exact .parseWith _ _ fun d path hpath pos => .loadIncluded d pos fun b hl _ =>
    .loadTop hp (h b ⟨path, hpath, hl⟩)

/-- All entries of such a bench are good. -/
theorem Bench.Served.holds {p : Parser} {on : SourceId → Prop} {b : Bench} (hp : p.Bounded on)
    (h : b.Served p on) : Cache.Holds p.IsParseOf 0 b.1 := by
  induction h with
  | new capacity => exact .ofCapacity capacity
  | load path hpath _ ih => exact (Parsing.Yields.load hp hpath _ ih).2
  | parse id source hsource _ ih => exact (Parsing.Yields.parseAs hp id hsource _ ih).2
  | get id _ ih => exact (ih.get id).1
  | invalidate id _ ih => exact ih.invalidate id
  | clear _ ih => exact ih.clear

/-! ## Loading -/

namespace Parser

variable {p : Parser}

/-- A list of sources that include only each other and that the resolver may chain. -/
theorem bounded_of_list {ids : List SourceId} (hfew : ids.length ≤ p.resolver.reach)
    (hclosed : ∀ a b, a ∈ ids → p.Includes a b → b ∈ ids) : p.Bounded (· ∈ ids) where
  closed := hclosed
  few := fun _ hd hon => Nat.le_trans (List.subperm_of_subset hd hon).length_le hfew

/-- The path leads to a source, and the template is what that source parses to in a new parser
without a cache. -/
def LeadsTo (p : Parser) (path : Text) (t : Template) : Prop :=
  ∃ id, p.locate path = .ok (some id) ∧ t.id = .source id ∧
    ((p.uncached.load path).on (.ofCapacity 0)).1.map Template.unnumbered = .ok t.unnumbered

theorem leadsTo_of_plainId {path : Text} {id : SourceId} {t : Template}
    (hl : p.locate path = .ok (some id)) (h : p.plainId p.depth [] id = .ok t.unnumbered) :
    p.LeadsTo path t := by
  refine ⟨id, hl, ?_, ?_⟩
  · obtain ⟨source, -, h⟩ := bind_eq_ok h
    obtain ⟨d, -, h⟩ := bind_eq_ok h
    obtain ⟨parts, -, h⟩ := bind_eq_ok h
    have hstamp : t.stamp.unnumbered = ⟨0, some id⟩ :=
      (congrArg Template.stamp (Except.ok.inj h)).symm
    have hsource : t.stamp.source = some id := congrArg Stamp.source hstamp
    simp [Template.id, Stamp.id, hsource]
  · have hload : p.uncached.load path = p.uncached.loadId p.depth [] id := by
      have hl' : p.uncached.locate path = .ok (some id) := hl
      unfold load
      rw [hl', Parsing.lift_ok_bind]
      rfl
    rw [hload, ← h, ← plainId_uncached]
    exact (Parsing.Yields.loadId_uncached rfl _ _ _ (.ofCapacity 0) True.intro).1

/-- A template that the plain parser gives at a path has no cycle in reach. -/
theorem acyclic_of_plainLoad {path : Text} {t : Template} (h : p.plainLoad path = .ok t) :
    ∃ root, p.locate path = .ok (some root) ∧ p.plainId p.depth [] root = .ok t ∧
      ∀ a, ReflTransGen p.Includes root a → ¬ TransGen p.Includes a a := by
  obtain ⟨id?, hl, h⟩ := bind_eq_ok h
  cases id? with
  | none => cases h
  | some root => exact ⟨root, hl, h, fun a ha => acyclic_of_reflTransGen h ha⟩

/-- A cycle that the plain parser reports at a path is a chain from there. -/
theorem chain_of_plainLoad {path : Text} {chain : List Text} {origin : Text} {pos : Position}
    (h : p.plainLoad path = .error (.parse ⟨.includeCycle chain, origin, pos⟩)) :
    ∃ root, p.locate path = .ok (some root) ∧ p.Chain root chain := by
  rcases bind_eq_error h with h | ⟨id?, hl, h⟩
  · unfold locate at h
    split at h <;> cases h
  cases id? with
  | none => cases h
  | some root =>
    obtain ⟨more, last, hchain, hinc, hnodup, hlast⟩ :=
      plainId_includeCycle (List.nodup_singleton root) h
    exact ⟨root, hl, root :: more, last, hchain, rfl, hinc, hnodup, hlast⟩

/-- **Includes end, and cycles are reported.** Let a parser be asked only for sources of a list that
include only each other, no more than the resolver may chain. Then loading ends. If it gives a
template, nothing in reach is in a cycle of includes, and every included template is what its path
leads to. If it reports a cycle, the report is a chain of includes from the loaded source that runs
into itself. If there is a cycle in reach, it gives no template. -/
theorem load_ends {ids : List SourceId} (hfew : ids.length ≤ p.resolver.reach)
    (hclosed : ∀ a b, a ∈ ids → p.Includes a b → b ∈ ids) {b : Bench} (hb : b.Served p (· ∈ ids))
    {path : Text} (hpath : ∀ id, p.locate path = .ok (some id) → id ∈ ids) :
    ((p.load path).on b).1 ≠ .error .endless ∧
      (∀ t, ((p.load path).on b).1 = .ok t →
        ∃ root, p.locate path = .ok (some root) ∧
          (∀ a, ReflTransGen p.Includes root a → ¬ TransGen p.Includes a a) ∧
          ∀ n path raw, t.Contains n → n.form = .included path raw → p.LeadsTo path n.template) ∧
      (∀ chain origin pos,
        ((p.load path).on b).1 = .error (.parse ⟨.includeCycle chain, origin, pos⟩) →
          ∃ root, p.locate path = .ok (some root) ∧ p.Chain root chain) ∧
      ∀ root a, p.locate path = .ok (some root) → ReflTransGen p.Includes root a →
        TransGen p.Includes a a → ∀ t, ((p.load path).on b).1 ≠ .ok t := by
  have hp := bounded_of_list hfew hclosed
  have hplain := (Parsing.Yields.load hp hpath b (hb.holds hp)).1
  have herror : ∀ e, ((p.load path).on b).1 = .error e → p.plainLoad path = .error e := by
    intro e he
    rw [← hplain, he]
    rfl
  have hok : ∀ t, ((p.load path).on b).1 = .ok t → p.plainLoad path = .ok t.unnumbered := by
    intro t ht
    rw [← hplain, ht]
    rfl
  refine ⟨fun he => ?_, fun t ht => ?_, fun chain origin pos he => ?_,
    fun root a hl ha hc t ht => ?_⟩
  · exact (Request.load path).plain_ne_endless hp hpath (congrArg some (herror _ he))
  · obtain ⟨root, hl, hroot, hacyclic⟩ := acyclic_of_plainLoad (hok t ht)
    refine ⟨root, hl, hacyclic, fun n path raw hn hform => ?_⟩
    obtain ⟨id, hl', hid⟩ := plainId_faithful (Nat.le_refl _) hroot hn.unnumbered path raw hform
    exact leadsTo_of_plainId hl' hid
  · exact chain_of_plainLoad (herror _ he)
  · obtain ⟨root', hl', -, hacyclic⟩ := acyclic_of_plainLoad (hok t ht)
    rw [hl, Except.ok.injEq, Option.some.injEq] at hl'
    rw [← hl'] at hacyclic
    exact hacyclic a ha hc

/-- Two sources that include each other, the second of which was asked for before. -/
theorem load_ends_pair :
    let p : Parser := ⟨.standard, .pair, true⟩
    let ids : List SourceId := [⟨['m'], ['a']⟩, ⟨['m'], ['b']⟩]
    let b : Bench := ((p.load ['b']).on (.ofCapacity 1)).2
    b.Served p (· ∈ ids) ∧ ((p.load ['a']).on b).1 ≠ .error .endless ∧
      ∀ t, ((p.load ['a']).on b).1 ≠ .ok t := by
  intro p ids b
  have hlocate : ∀ path id, p.locate path = .ok (some id) → id ∈ ids := fun path id hl =>
    Request.mem_of_reaches_pair (r := .load path) rfl ⟨id, hl, .refl⟩
  have hserved : b.Served p (· ∈ ids) := .load ['b'] (hlocate ['b']) (.new 1)
  have hends := load_ends (p := p) (by decide)
    (fun a b _ ⟨source, _, path, _, hb⟩ => hlocate path b hb) hserved (hlocate ['a'])
  have hab : p.Includes ⟨['m'], ['a']⟩ ⟨['m'], ['b']⟩ :=
    ⟨"~%%include:b%".toList, by decide, ['b'], by decide, by decide⟩
  have hba : p.Includes ⟨['m'], ['b']⟩ ⟨['m'], ['a']⟩ :=
    ⟨"~%%include:a%".toList, by decide, ['a'], by decide, by decide⟩
  exact ⟨hserved, hends.1, hends.2.2.2 _ _ rfl .refl (.head hab (.single hba))⟩

end Parser

end Stencil
