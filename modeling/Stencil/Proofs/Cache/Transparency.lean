import Stencil.Engine
import Stencil.Proofs.Cache.Entries
import Stencil.Proofs.Parsing.Includes
import Mathlib.Data.List.Perm.Subperm

/-!
# The cache is transparent

**Good entries** (`Parser.IsParseOf`). An entry is good if it is what its source parses to on its
own, below an empty stack of includes. Entries are made in the middle of other parses, below
whatever stack those have come to. They are good all the same: a source that parses leads to
nothing on its stack, so the stack made no difference, and wherever the entry is found later the
stack would make none either.

**Requests** (`Engine.serveAll`). What is asked of an engine, one after another: loads, texts to
parse, sources to forget, and forgetting everything.

**Transparency** (`serveAll_eq_fresh`). Every answer is that of a new parser without a cache, up to
serial numbers. The resolver must lead to finitely many sources, and its reach must cover them;
then the bound on nested loads is never hit.
-/

namespace Stencil

open Relation

namespace Parser

variable {p : Parser} {on : SourceId → Prop} {stack : List SourceId} {id : SourceId} {n : Nat}

/-- The template is what the source parses to on its own, up to serial numbers. -/
def IsParseOf (p : Parser) (id : SourceId) (t : Template) : Prop :=
  p.plainId p.depth [] id = .ok t.unnumbered

/-- The parser without a cache. -/
def uncached (p : Parser) : Parser := { p with caching := false }

theorem plainId_uncached (n : Nat) (stack : List SourceId) (id : SourceId) :
    p.uncached.plainId n stack id = p.plainId n stack id := by
  induction n generalizing stack id with
  | zero => rfl
  | succ n ih =>
    have hn : p.uncached.plainId n = p.plainId n := funext fun s => funext fun i => ih s i
    unfold plainId
    rw [hn]
    rfl

theorem plainText_uncached (source : Text) : p.uncached.plainText source = p.plainText source := by
  have hd : p.uncached.plainId p.uncached.depth [] = p.plainId p.depth [] :=
    funext fun id => plainId_uncached _ _ id
  unfold plainText
  rw [hd]
  rfl

theorem plainLoad_uncached (path : Text) : p.uncached.plainLoad path = p.plainLoad path := by
  have hd : p.uncached.plainId p.uncached.depth [] = p.plainId p.depth [] :=
    funext fun id => plainId_uncached _ _ id
  unfold plainLoad
  rw [hd]
  rfl

theorem loadIncluded_some {load : SourceId → Parsing Template} {path : Text}
    (h : p.locate path = .ok (some id)) (d : Draft) (pos : Nat) :
    p.loadIncluded load stack d path pos =
      if id ∈ stack then throw (d.error (.includeCycle ((stack ++ [id]).map SourceId.text)) pos)
      else load id := by
  unfold loadIncluded
  rw [h, Parsing.lift_ok_bind]
  by_cases hs : id ∈ stack
  · simp only [List.contains_iff_mem, hs, if_true]
    rfl
  · simp [hs]

end Parser

/-! ## Agreement through the cache -/

namespace Parsing

variable {p : Parser} {on : SourceId → Prop} {stack : List SourceId} {id : SourceId} {n : Nat}
  {inv : Cache SourceId Template → Prop}

/-- An include agrees with its plain form if the sources that are not on the stack do. -/
theorem Yields.loadIncluded {load : SourceId → Parsing Template}
    {plain : SourceId → Except LoadError Template} {path : Text} (d : Draft) (pos : Nat)
    (h : ∀ b, p.locate path = .ok (some b) → b ∉ stack →
      Yields inv Template.unnumbered (load b) (plain b)) :
    Yields inv Template.unnumbered (p.loadIncluded load stack d path pos)
      (p.plainIncluded plain stack d path pos) := by
  cases hl : p.locate path with
  | error e =>
    unfold Parser.loadIncluded Parser.plainIncluded
    rw [hl, lift_error_bind]
    exact .throw e
  | ok id? =>
    cases id? with
    | none =>
      unfold Parser.loadIncluded Parser.plainIncluded
      rw [hl, lift_ok_bind]
      exact .throw _
    | some b =>
      rw [Parser.loadIncluded_some hl, Parser.plainIncluded_some hl]
      by_cases hb : b ∈ stack
      · rw [if_pos hb, if_pos hb]
        exact .throw _
      · rw [if_neg hb, if_neg hb]
        exact h b hl hb

/-- **Loading a source agrees with its plain form, whatever good entries there are.** -/
theorem Yields.loadId (hp : p.Bounded on) (ht : p.Trail on stack id)
    (hn : p.resolver.reach < n + stack.length) (hd : n ≤ p.depth) :
    Yields (Cache.Holds p.IsParseOf 0) Template.unnumbered (p.loadId n stack id)
      (p.plainId n stack id) := by
  induction n generalizing stack id with
  | zero => exact .throw _
  | succ n ih =>
    refine Runs.cached ?_ ?_ ?_
    · show Yields _ _ _ _
      unfold Parser.plainId
      cases hr : p.readText id with
      | error e =>
        rw [lift_error_bind]
        exact .throw e
      | ok source =>
        rw [lift_ok_bind]
        refine Yields.parseWith _ _ fun d path hpath pos => .loadIncluded d pos fun b hl hb => ?_
        refine ih (ht.push hp ⟨source, hr, path, hpath, hl⟩ hb) ?_ (by omega)
        simp only [List.length_append, List.length_singleton]
        omega
    -- What was parsed below this stack is good, and what is good would parse so below it.
    · intro t h
      exact (ht.plainId_eq_ok_iff hp hn hd).1 h.symm
    · intro t h
      exact ((ht.plainId_eq_ok_iff hp hn hd).2 h).symm

/-- Without a cache, a source is loaded as by the plain parser, on every bench. -/
theorem Yields.loadId_uncached (hc : p.caching = false) (n : Nat) (stack : List SourceId)
    (id : SourceId) :
    Yields (fun _ => True) Template.unnumbered (p.loadId n stack id) (p.plainId n stack id) := by
  induction n generalizing stack id with
  | zero => exact .throw _
  | succ n ih =>
    have hcached : ∀ parse : Parsing Template, p.cached id parse = parse := by
      intro parse
      simp [Parser.cached, hc]
    unfold Parser.loadId Parser.plainId
    rw [hcached]
    cases hr : p.readText id with
    | error e =>
      rw [lift_error_bind]
      exact .throw e
    | ok source =>
      rw [lift_ok_bind]
      exact .parseWith _ _ fun d path _ pos => .loadIncluded d pos fun b _ _ => ih _ b

theorem Yields.loadTop (hp : p.Bounded on) (hid : on id) :
    Yields (Cache.Holds p.IsParseOf 0) Template.unnumbered (p.loadId p.depth [] id)
      (p.plainId p.depth [] id) :=
  .loadId hp (.nil hid) (Nat.lt_succ_self _) (Nat.le_refl _)

theorem Yields.load (hp : p.Bounded on) {path : Text}
    (h : ∀ id, p.locate path = .ok (some id) → on id) :
    Yields (Cache.Holds p.IsParseOf 0) Template.unnumbered (p.load path) (p.plainLoad path) := by
  unfold Parser.load Parser.plainLoad
  cases hl : p.locate path with
  | error e =>
    rw [lift_error_bind]
    exact .throw e
  | ok id? =>
    rw [lift_ok_bind]
    cases id? with
    | none => exact .throw _
    | some id => exact .loadTop hp (h id hl)

theorem Yields.parseText (hp : p.Bounded on) {source : Text}
    (h : ∀ id, p.Mentions source id → on id) :
    Yields (Cache.Holds p.IsParseOf 0) Template.unnumbered (p.parseText source)
      (p.plainText source) :=
  .parseWith _ _ fun d path hpath pos => .loadIncluded d pos fun b hl _ =>
    .loadTop hp (h b ⟨path, hpath, hl⟩)

end Parsing

/-! ## Requests -/

/-- What can be asked of an engine. -/
inductive Request where
  | load (path : Text)
  | text (source : Text)
  | invalidate (path : Text)
  | clear

namespace Request

/-- The request asks for the template of a source, or parses a text that mentions it. -/
def Names (p : Parser) : Request → SourceId → Prop
  | .load path, id => p.locate path = .ok (some id)
  | .text source, id => p.Mentions source id
  | .invalidate _, _ => False
  | .clear, _ => False

/-- The request leads to the source, directly or through includes. -/
def Reaches (p : Parser) (r : Request) (id : SourceId) : Prop :=
  ∃ root, r.Names p root ∧ ReflTransGen p.Includes root id

/-- What a parser answers on a new bench; nothing if no template is asked for. -/
def fresh (p : Parser) : Request → Option (Except LoadError Template)
  | .load path => some ((p.load path).on (.ofCapacity 0)).1
  | .text source => some ((p.parseText source).on (.ofCapacity 0)).1
  | .invalidate _ => none
  | .clear => none

/-- What the plain parser answers. -/
def plain (p : Parser) : Request → Option (Except LoadError Template)
  | .load path => some (p.plainLoad path)
  | .text source => some (p.plainText source)
  | .invalidate _ => none
  | .clear => none

end Request

/-- The answer without serial numbers. -/
def unnumberedAnswer (a : Option (Except LoadError Template)) :
    Option (Except LoadError Template) :=
  a.map fun r => r.map Template.unnumbered

namespace Engine

/-- Serves one request. -/
def serve (e : Engine) (files : FileTree) :
    Request → Option (Except LoadError Template) × Engine
  | .load path =>
    let (r, e) := e.load files path
    (some r, e)
  | .text source =>
    let (r, e) := e.parseText files source
    (some r, e)
  | .invalidate path => (none, (e.invalidate files path).2)
  | .clear => (none, e.clear)

/-- Serves requests one after another. -/
def serveAll (e : Engine) (files : FileTree) :
    List Request → List (Option (Except LoadError Template)) × Engine
  | [] => ([], e)
  | r :: rest =>
    let (a, e) := e.serve files r
    let (as, e) := serveAll e files rest
    (a :: as, e)

end Engine

/-! ## Transparency -/

section Transparency

variable {p : Parser} {on : SourceId → Prop} {r : Request} {e : Engine} {files : FileTree}

/-- A parser without a cache answers a request as the plain parser does. -/
theorem Request.fresh_eq (hp : p.Bounded on) (h : ∀ id, r.Names p id → on id) :
    unnumberedAnswer (r.fresh p.uncached) = r.plain p := by
  have hu : p.uncached.Bounded on := ⟨hp.closed, hp.few⟩
  have hb : Cache.Holds p.uncached.IsParseOf 0 (Bench.ofCapacity 0).1 := .ofCapacity 0
  cases r with
  | load path =>
    have hy := (Parsing.Yields.load hu h _ hb).1
    rw [Parser.plainLoad_uncached] at hy
    exact congrArg some hy
  | text source =>
    have hy := (Parsing.Yields.parseText hu h _ hb).1
    rw [Parser.plainText_uncached] at hy
    exact congrArg some hy
  | invalidate => rfl
  | clear => rfl

/-- The bound on nested loads is not hit by a request for sources of a bounded set. -/
theorem Request.plain_ne_endless (hp : p.Bounded on) (h : ∀ id, r.Names p id → on id) :
    r.plain p ≠ some (.error .endless) := by
  have hd : p.resolver.reach < p.depth + ([] : List SourceId).length := Nat.lt_succ_self _
  cases r with
  | load path =>
    intro he
    have he : p.plainLoad path = .error .endless := Option.some.inj he
    unfold Parser.plainLoad at he
    cases hl : p.locate path with
    | error err =>
      rw [hl] at he
      cases he
      exact Parser.locate_ne_endless hl
    | ok id? =>
      rw [hl] at he
      cases id? with
      | none => cases he
      | some id => exact Parser.plainId_ne_endless hp (.nil (h id hl)) hd he
  | text source =>
    intro he
    have he : p.plainText source = .error .endless := Option.some.inj he
    refine Parser.plainWith_ne_endless (fun b hb _ => ?_) he
    exact Parser.plainId_ne_endless hp (.nil (h b hb)) hd
  | invalidate => exact fun he => nomatch he
  | clear => exact fun he => nomatch he

/-- One request is answered as by the plain parser; good entries stay good. -/
theorem Engine.serve_eq (hp : (e.parser files).Bounded on)
    (h : ∀ id, r.Names (e.parser files) id → on id)
    (hc : Cache.Holds (e.parser files).IsParseOf 0 e.cache) :
    unnumberedAnswer (e.serve files r).1 = r.plain (e.parser files) ∧
      (e.serve files r).2.parser files = e.parser files ∧
      Cache.Holds (e.parser files).IsParseOf 0 (e.serve files r).2.cache := by
  cases r with
  | load path =>
    obtain ⟨ha, hk⟩ := Parsing.Yields.load hp h e.bench hc
    exact ⟨congrArg some ha, rfl, hk⟩
  | text source =>
    obtain ⟨ha, hk⟩ := Parsing.Yields.parseText hp h e.bench hc
    exact ⟨congrArg some ha, rfl, hk⟩
  | invalidate path =>
    refine ⟨rfl, ?_⟩
    show (e.invalidate files path).2.parser files = e.parser files ∧
      Cache.Holds (e.parser files).IsParseOf 0 (e.invalidate files path).2.cache
    cases hl : (e.parser files).locate path with
    | error err =>
      simp only [Engine.invalidate, hl]
      exact ⟨trivial, hc⟩
    | ok id? =>
      cases id? with
      | none =>
        simp only [Engine.invalidate, hl]
        exact ⟨trivial, hc⟩
      | some id =>
        simp only [Engine.invalidate, hl]
        exact ⟨rfl, hc.invalidate id⟩
  | clear => exact ⟨rfl, rfl, hc.clear⟩

/-- All requests are answered as by the plain parser. -/
theorem Engine.serveAll_eq (hp : (e.parser files).Bounded on) (requests : List Request)
    (h : ∀ r ∈ requests, ∀ id, r.Names (e.parser files) id → on id)
    (hc : Cache.Holds (e.parser files).IsParseOf 0 e.cache) :
    (e.serveAll files requests).1.map unnumberedAnswer =
      requests.map (Request.plain (e.parser files)) := by
  induction requests generalizing e with
  | nil => rfl
  | cons r rest ih =>
    obtain ⟨ha, hsame, hk⟩ := serve_eq hp (h r List.mem_cons_self) hc
    have hrest := @ih (e.serve files r).2
    rw [hsame] at hrest
    have htail := hrest hp (fun r' hr' => h r' (List.mem_cons_of_mem _ hr')) hk
    exact congrArg₂ List.cons ha htail

/-- An engine is built with an empty cache. -/
theorem Engine.cache_of_build {files₀ : FileTree} {s : Settings}
    {resolver? : Option (FileTree → Resolver)} {escaper? : Option Escaper}
    (h : Engine.build files₀ s resolver? escaper? = .ok e) :
    e.cache = .ofCapacity s.capacity := by
  unfold Engine.build at h
  cases hm : s.markers.error? with
  | some err =>
    rw [hm] at h
    cases h
  | none =>
    rw [hm] at h
    cases resolver? with
    | some r =>
      cases h
      rfl
    | none =>
      cases hs : (searching files₀ s.dirs) with
      | error err =>
        rw [hs] at h
        cases h
      | ok r =>
        rw [hs] at h
        cases h
        rfl

/-- The sources that requests lead to are bounded if they are among so many as the resolver may
chain. -/
theorem Request.bounded {requests : List Request} {ids : List SourceId}
    (hfew : ids.length ≤ p.resolver.reach)
    (hids : ∀ r ∈ requests, ∀ id, r.Reaches p id → id ∈ ids) :
    p.Bounded fun id => ∃ r ∈ requests, r.Reaches p id where
  closed := by
    rintro a b ⟨r, hr, root, hroot, ha⟩ hab
    exact ⟨r, hr, root, hroot, .tail ha hab⟩
  few := by
    intro some_ids hd hon
    have hsub : some_ids ⊆ ids := by
      intro id hid
      obtain ⟨r, hr, hreach⟩ := hon id hid
      exact hids r hr id hreach
    exact Nat.le_trans (List.subperm_of_subset hd hsub).length_le hfew

/-- **The cache is transparent.** An engine with any settings serves any requests as a new parser
without a cache would serve each alone, up to serial numbers, and never runs out of nested loads;
provided that the sources which the requests lead to are no more than the resolver may chain. -/
theorem Engine.serveAll_eq_fresh {files₀ : FileTree} {s : Settings}
    {resolver? : Option (FileTree → Resolver)} {escaper? : Option Escaper}
    (hbuild : Engine.build files₀ s resolver? escaper? = .ok e) (requests : List Request)
    (ids : List SourceId) (hfew : ids.length ≤ (e.resolver files).reach)
    (hids : ∀ r ∈ requests, ∀ id, r.Reaches (e.parser files) id → id ∈ ids) :
    (e.serveAll files requests).1.map unnumberedAnswer =
        requests.map (fun r => unnumberedAnswer (r.fresh (e.parser files).uncached)) ∧
      some (.error .endless) ∉ (e.serveAll files requests).1 := by
  have hp := Request.bounded hfew hids
  have hon : ∀ r ∈ requests, ∀ id, r.Names (e.parser files) id →
      ∃ r ∈ requests, r.Reaches (e.parser files) id :=
    fun r hr id hn => ⟨r, hr, id, hn, .refl⟩
  have hc : Cache.Holds (e.parser files).IsParseOf 0 e.cache := by
    rw [cache_of_build hbuild]
    exact .ofCapacity _
  have hplain := serveAll_eq hp requests hon hc
  constructor
  · rw [hplain]
    refine List.map_congr_left fun r hr => ?_
    exact (Request.fresh_eq hp (hon r hr)).symm
  · intro hmem
    have hm : some (.error .endless) ∈ requests.map (Request.plain (e.parser files)) := by
      rw [← hplain]
      exact List.mem_map.2 ⟨_, hmem, rfl⟩
    obtain ⟨r, hr, he⟩ := List.mem_map.1 hm
    exact Request.plain_ne_endless hp (hon r hr) he

/-- Two sources that include each other. -/
def Resolver.pair : Resolver where
  locate := fun path => .ok (if path = ['a'] ∨ path = ['b'] then some ⟨['m'], path⟩ else .none)
  read := fun id => .ok (Text.toBytes (if id.path = ['a'] then "~%%include:b%".toList
    else "~%%include:a%".toList))
  reach := 2

/-- The pair is all that a request can lead to. -/
theorem Request.mem_of_reaches_pair {r : Request} {id : SourceId} (hp : p.resolver = .pair)
    (h : r.Reaches p id) : id ∈ [(⟨['m'], ['a']⟩ : SourceId), ⟨['m'], ['b']⟩] := by
  have hl : ∀ path id, p.locate path = .ok (some id) →
      id ∈ [(⟨['m'], ['a']⟩ : SourceId), ⟨['m'], ['b']⟩] := by
    intro path id hl
    have hpath : p.resolver.locate path =
        .ok (if path = ['a'] ∨ path = ['b'] then some ⟨['m'], path⟩ else none) := by
      rw [hp]
      rfl
    simp only [Parser.locate, hpath, Except.ok.injEq] at hl
    split at hl
    · rename_i hab
      cases hl
      rcases hab with rfl | rfl <;> simp
    · cases hl
  obtain ⟨root, hroot, hid⟩ := h
  rcases ReflTransGen.cases_tail hid with rfl | ⟨a, -, source, -, path, -, hb⟩
  · cases r with
    | load path => exact hl path id hroot
    | text source =>
      obtain ⟨path, -, hb⟩ := hroot
      exact hl path id hb
    | invalidate => exact hroot.elim
    | clear => exact hroot.elim
  · exact hl path id hb

theorem Engine.serveAll_eq_fresh_pair :
    ∃ e, Engine.build .empty { Settings.default with capacity := 1 } (some fun _ => .pair) none =
        .ok e ∧
      let requests := [.load ['a'], .load ['b'], .text "~%%include:b%".toList,
        .invalidate ['b'], .load ['b'], .clear, .load ['a']]
      (e.serveAll .empty requests).1.map unnumberedAnswer =
          requests.map (fun r => unnumberedAnswer (r.fresh (e.parser .empty).uncached)) ∧
        some (.error .endless) ∉ (e.serveAll .empty requests).1 := by
  have hb : Engine.build .empty { Settings.default with capacity := 1 } (some fun _ => .pair) none =
      .ok ⟨.standard, fun _ => .pair, standardEscaper, .html, .ofCapacity 1⟩ := rfl
  refine ⟨_, hb, ?_⟩
  exact serveAll_eq_fresh hb _ [⟨['m'], ['a']⟩, ⟨['m'], ['b']⟩] (by decide)
    fun r _ id hr => Request.mem_of_reaches_pair rfl hr

end Transparency

end Stencil
