import Stencil.Proofs.Session.Meaning

/-!
# Completeness and rendering

Three walks go over the levels of a session: one lists all open names, one stops at the first of
them, and one writes what is bound and passes over what is not.

**Open names** (`State.openNames`). The open names of a state by their addresses, as the first walk
meets them. They are those of all bound levels (`State.Sound.mem_openNames_iff`), in the order of
names and repetitions (`State.pairwise_openNames`).

**First open names** (`State.firstUnresolvedFrom?_eq_head?`). The second walk stops at the first
name of the list.

**Rendering** (`State.Visits.complete`). Every level that the third walk comes to is complete if the
state is, so by the records of the session (`State.Sound`) nothing is passed over.
-/

namespace Stencil

namespace State

/-! ## Addresses -/

/-- Where a name is open: the way to its level, and the name there. -/
structure Address where
  scope : Scope
  name : Text

namespace Address

/-- The path from the root, as in `rows[1].title`: for each step of the way the nested template, the
number of the repetition in brackets and a point, and behind them the name. -/
def path (a : Address) : Text :=
  (a.scope.flatMap fun (nested, i) => nested ++ ['['] ++ Nat.toDigits 10 i ++ [']', '.']) ++ a.name

/-- The name on the level where the way begins. -/
def first (a : Address) : Text := (a.scope.head?.map Prod.fst).getD a.name

/-- The address as seen from outside a repetition. -/
def within (nested : Text) (i : Nat) (a : Address) : Address := ⟨(nested, i) :: a.scope, a.name⟩

theorem path_root (name : Text) : path ⟨[], name⟩ = name := rfl

/-- Seen from outside, the path goes on behind that of the repetition. -/
theorem append_path_within (prior nested : Text) (i : Nat) (a : Address) :
    prior ++ (a.within nested i).path = enter prior nested i ++ a.path := by
  simp [path, within, enter, Text.ofNat]

end Address

/-- The way leads from a state to one of the states bound below it, or to itself. -/
inductive Leads : State → Scope → State → Prop
  | root {s : State} : Leads s [] s
  | child {s c d : State} {nested : Text} {i : Nat} {scope : Scope}
      (hc : (s.childrenOf nested)[i]? = some c) (h : Leads c scope d) :
      Leads s ((nested, i) :: scope) d

/-- The name at the address is open. -/
def Opens (s : State) (a : Address) : Prop :=
  ∃ d, Leads s a.scope d ∧ a.name ∈ d.template.names ∧ a.name ∉ d.resolved

/-- One address comes before another: by the names of the first level where they part, or by the
repetitions of a nested template there. -/
inductive Precedes : State → Address → Address → Prop
  | names {s : State} {a b : Address} (h : [a.first, b.first].Sublist s.template.names) :
      Precedes s a b
  | repetitions {s : State} {nested : Text} {i j : Nat} {a b : Address} (h : i < j) :
      Precedes s (a.within nested i) (b.within nested j)
  | inside {s c : State} {nested : Text} {i : Nat} {a b : Address}
      (hc : (s.childrenOf nested)[i]? = some c) (h : Precedes c a b) :
      Precedes s (a.within nested i) (b.within nested i)

/-- No address comes before itself. -/
theorem Precedes.ne {s : State} {a b : Address} (h : Precedes s a b) : a ≠ b := by
  induction h with
  | @names s a b h =>
    rintro rfl
    exact List.nodup_iff_sublist.1 s.template.nodup_names _ h
  | repetitions h =>
    intro he
    obtain ⟨he, -⟩ := List.cons.inj (congrArg Address.scope he)
    exact Nat.ne_of_lt h (congrArg Prod.snd he)
  | @inside s c nested i a b hc h ih =>
    intro he
    obtain ⟨scope, name⟩ := a
    obtain ⟨scope', name'⟩ := b
    cases he
    exact ih rfl

/-! ## Open names -/

/-- The addresses of the open names on this level and below. -/
def openNames (s : State) : List Address :=
  s.template.names.flatMap fun name =>
    if s.isResolved name then
      (s.childrenOf name).attach.zipIdx.flatMap fun (⟨c, _⟩, i) =>
        (openNames c).map (Address.within name i)
    else [⟨[], name⟩]
termination_by sizeOf s
decreasing_by exact sizeOf_lt_of_mem_childrenOf ‹_›

theorem openNames_eq (s : State) : s.openNames = s.template.names.flatMap fun name =>
    if s.isResolved name then
      (s.childrenOf name).zipIdx.flatMap fun e => e.1.openNames.map (Address.within name e.2)
    else [⟨[], name⟩] := by
  rw [openNames]
  refine List.flatMap_congr fun name _ => ?_
  split
  · exact flatMap_attach_zipIdx _ fun c i => (openNames c).map (Address.within name i)
  · rfl

/-- **The paths that are listed are those of the open names.** -/
theorem unresolvedFrom_eq_map (path : Text) (s : State) :
    s.unresolvedFrom path = s.openNames.map fun a => path ++ a.path := by
  rw [unresolvedFrom_eq, openNames_eq, List.map_flatMap]
  refine List.flatMap_congr fun name _ => ?_
  split
  · rw [List.map_flatMap]
    refine List.flatMap_congr fun (c, i) hc => ?_
    have hmem : c ∈ s.childrenOf name := List.fst_mem_of_mem_zipIdx hc
    rw [List.map_map]
    refine (unresolvedFrom_eq_map (enter path name i) c).trans ?_
    refine List.map_congr_left fun a _ => ?_
    exact (Address.append_path_within path name i a).symm
  · rw [List.map_singleton, Address.path_root]
termination_by sizeOf s
decreasing_by exact sizeOf_lt_of_mem_childrenOf hmem

theorem first_of_mem {s : State} {name : Text} {a : Address}
    (h : a ∈ if s.isResolved name then
      (s.childrenOf name).zipIdx.flatMap fun e => e.1.openNames.map (Address.within name e.2)
    else [⟨[], name⟩]) : a.first = name := by
  split at h
  · obtain ⟨e, -, ha⟩ := List.mem_flatMap.1 h
    obtain ⟨b, -, rfl⟩ := List.mem_map.1 ha
    rfl
  · rw [List.mem_singleton.1 h]
    rfl

theorem pairwise_zipIdx {α : Type} (cs : List α) :
    cs.zipIdx.Pairwise fun e e' => e.2 < e'.2 := by
  have hrange : (cs.zipIdx.map Prod.snd).Pairwise (· < ·) := by
    rw [List.zipIdx_map_snd]
    exact List.pairwise_lt_range'
  exact List.pairwise_map.1 hrange

/-- **Open names are listed in the order of names and repetitions**, by induction on the levels. -/
theorem pairwise_openNames (s : State) : s.openNames.Pairwise s.Precedes := by
  rw [openNames_eq, List.pairwise_flatMap]
  constructor
  · intro name _
    split
    · rw [List.pairwise_flatMap]
      constructor
      · intro (c, i) hc
        have hmem : c ∈ s.childrenOf name := List.fst_mem_of_mem_zipIdx hc
        have hat : (s.childrenOf name)[i]? = some c := List.mem_zipIdx_iff_getElem?.1 hc
        exact List.pairwise_map.2 ((pairwise_openNames c).imp (Precedes.inside hat))
      · refine (pairwise_zipIdx _).imp fun {e e'} hlt a ha b hb => ?_
        obtain ⟨a, -, rfl⟩ := List.mem_map.1 ha
        obtain ⟨b, -, rfl⟩ := List.mem_map.1 hb
        exact .repetitions hlt
    · exact List.pairwise_singleton _ _
  · refine List.pairwise_iff_forall_sublist.2 fun {n n'} hsub a ha b hb => .names ?_
    rw [first_of_mem ha, first_of_mem hb]
    exact hsub
termination_by sizeOf s
decreasing_by exact sizeOf_lt_of_mem_childrenOf hmem

/-- A state bound below a sound one belongs to a nested template that is resolved. -/
theorem Consistent.resolved_of_child {s c : State} {name : Text} (h : s.Consistent)
    (hc : c ∈ s.childrenOf name) : name ∈ s.template.names ∧ name ∈ s.resolved := by
  obtain ⟨n, hn, rfl⟩ := h.nested_of_child hc
  refine ⟨Template.mem_names_of_nested hn, (h.populated_iff n hn).2 ?_⟩
  unfold childrenOf at hc
  cases hg : Table.get? s.children n.name with
  | none =>
    rw [hg] at hc
    cases hc
  | some cs => exact ⟨cs, rfl⟩

/-- **The listed names are the open names of all bound levels.** -/
theorem Sound.mem_openNames_iff {s : State} (h : s.Sound) (a : Address) :
    a ∈ s.openNames ↔ s.Opens a := by
  induction h generalizing a with
  | @mk s level children ih =>
    rw [openNames_eq, List.mem_flatMap]
    constructor
    · rintro ⟨name, hname, ha⟩
      split at ha
      · obtain ⟨⟨c, i⟩, hc, ha⟩ := List.mem_flatMap.1 ha
        obtain ⟨b, hb, rfl⟩ := List.mem_map.1 ha
        have hat : (s.childrenOf name)[i]? = some c := List.mem_zipIdx_iff_getElem?.1 hc
        obtain ⟨d, hd, hopen⟩ := (ih name c (List.mem_of_getElem? hat) b).1 hb
        exact ⟨d, .child hat hd, hopen⟩
      · rename_i hr
        rw [List.mem_singleton.1 ha]
        exact ⟨s, .root, hname, fun hmem => hr (List.contains_iff_mem.2 hmem)⟩
    · rintro ⟨d, hd, hname, hopen⟩
      obtain ⟨scope, name⟩ := a
      cases hd with
      | root =>
        refine ⟨name, hname, ?_⟩
        have hr : ¬ s.isResolved name = true := mt List.contains_iff_mem.1 hopen
        rw [if_neg hr]
        exact List.mem_singleton_self _
      | @child _ c _ nested i scope hat hd =>
        have hmem : c ∈ s.childrenOf nested := List.mem_of_getElem? hat
        obtain ⟨hnames, hr⟩ := level.resolved_of_child hmem
        refine ⟨nested, hnames, ?_⟩
        rw [isResolved, if_pos (List.contains_iff_mem.2 hr)]
        have hbelow := (ih nested c hmem ⟨scope, name⟩).2 ⟨d, hd, hname, hopen⟩
        exact List.mem_flatMap.2
          ⟨(c, i), List.mem_zipIdx_iff_getElem?.2 hat, List.mem_map_of_mem hbelow⟩

/-! ## First open names -/

/-- **The search stops at the first path of the list.** -/
theorem firstUnresolvedFrom?_eq_head? (path : Text) (s : State) :
    s.firstUnresolvedFrom? path = (s.unresolvedFrom path).head? := by
  rw [firstUnresolvedFrom?_eq, unresolvedFrom_eq, List.head?_flatMap]
  refine findSome?_congr fun name _ => ?_
  split
  · rw [List.head?_flatMap]
    refine findSome?_congr fun (c, i) hc => ?_
    have hmem : c ∈ s.childrenOf name := List.fst_mem_of_mem_zipIdx hc
    exact firstUnresolvedFrom?_eq_head? (enter path name i) c
  · rfl
termination_by sizeOf s
decreasing_by exact sizeOf_lt_of_mem_childrenOf hmem

/-! ## Rendering -/

/-- The writer of a state comes to another one: to itself, or to what is bound to a nested part of
one it comes to. -/
inductive Visits : State → State → Prop
  | self {s : State} : Visits s s
  | part {s c d : State} {name : Text} {form : Form} {stamp : Stamp} {body : List Part}
      (hp : .nested name form stamp body ∈ s.template.parts) (hc : c ∈ s.childrenOf name)
      (h : Visits c d) : Visits s d

/-- Nothing is passed over when the state is written: variables have text at each of their parts,
and nested parts have been bound, perhaps to no repetition. -/
structure Filled (s : State) : Prop where
  slots : ∀ (i : Nat) name kind raw, s.template.parts[i]? = some (.var name kind raw) →
    ∃ text, s.slot i = some text
  children : ∀ name form stamp body, .nested name form stamp body ∈ s.template.parts →
    ∃ cs, Table.get? s.children name = some cs

theorem Complete.filled {s : State} (h : s.Complete) (hs : s.Consistent) : s.Filled where
  slots := by
    intro i name kind raw hi
    have hpos : i ∈ s.template.positions name := Template.mem_positions_iff_var.2 ⟨kind, raw, hi⟩
    have hv : s.template.hasVariable name = true := Template.hasVariable_iff.2 ⟨i, hpos⟩
    have hr := h.names name (Template.mem_names_of_hasVariable hv)
    exact Option.isSome_iff_exists.1 ((hs.set_iff name hv).1 hr i hpos)
  children := by
    intro name form stamp body hp
    have hn : ⟨name, form, stamp, body⟩ ∈ s.template.nestedList :=
      List.mem_filterMap.2 ⟨_, hp, rfl⟩
    exact (hs.populated_iff _ hn).1 (h.names name (Template.mem_names_of_nested hn))

/-- **Whatever the writer of a complete state comes to is complete.** -/
theorem Visits.complete {s d : State} (h : s.Visits d) (hs : s.Sound) (hc : s.Complete) :
    d.Sound ∧ d.Complete := by
  induction h with
  | self => exact ⟨hs, hc⟩
  | @part s c d name form stamp body hp hmem _ ih =>
    have hname : name ∈ s.template.names := Template.mem_names.2 ⟨_, hp, rfl⟩
    exact ih (hs.children name c hmem) (hc.children name hname c hmem)

end State

/-! ## Sessions -/

namespace Session

/-- The sessions that come from a new session of a template. -/
inductive Reachable (t : Template) : Session → Prop
  | new : Reachable t (.new t)
  | withEscaper {s : Session} (h : Reachable t s) (escaper : Escaper) :
      Reachable t (s.withEscaper escaper)
  | withKind {s : Session} (h : Reachable t s) (kind : EscapeKind) : Reachable t (s.withKind kind)
  | perform {s : Session} (h : Reachable t s) (op : Operation) : Reachable t (s.perform op)

variable {t : Template} {s : Session}

theorem Reachable.soundFor (h : Reachable t s) (ht : t.WellNamed) : s.state.SoundFor t := by
  induction h with
  | new => exact ⟨State.sound_new t, rfl⟩
  | withEscaper _ _ ih => exact ih
  | withKind _ _ ih => exact ih
  | perform _ op ih => exact perform_soundFor op ht ih

/-- **What is open, what is complete and what is rendered agree.** In every session of a parsed
template that can be reached: the paths of open names are listed, in the order of names and
repetitions, once for each name that is not resolved on its level, on the root and on every level
bound below it; the session is complete exactly if the list is empty; rendering fails with the
first path of the list, and gives the text of the state if there is none. If it succeeds, the writer
comes to no part that is not bound. -/
theorem unresolved_render (ht : t.Parsed) (hs : Reachable t s) :
    (∃ addresses : List State.Address,
      s.state.unresolved = addresses.map State.Address.path ∧
        addresses.Pairwise s.state.Precedes ∧ addresses.Nodup ∧
        ∀ a, a ∈ addresses ↔ s.state.Opens a) ∧
      (s.state.isComplete = true ↔ s.state.unresolved = []) ∧
      (s.state.unresolved = [] → s.render = .ok s.state.render) ∧
      (∀ path rest, s.state.unresolved = path :: rest →
        s.render = .error (.session (.incomplete path))) ∧
      ∀ text, s.render = .ok text → ∀ d, s.state.Visits d → d.Filled := by
  have hsound := (hs.soundFor ht.wellNamed).sound
  have hfirst : s.state.firstUnresolved? = s.state.unresolved.head? :=
    State.firstUnresolvedFrom?_eq_head? [] s.state
  have hpairwise := s.state.pairwise_openNames
  refine ⟨⟨s.state.openNames, State.unresolvedFrom_eq_map [] s.state, hpairwise,
    hpairwise.imp State.Precedes.ne, hsound.mem_openNames_iff⟩, ?_, ?_, ?_, ?_⟩
  · rw [State.isComplete, hfirst, Option.isNone_iff_eq_none, List.head?_eq_none_iff]
  · intro hnil
    rw [render, hfirst, hnil]
    rfl
  · intro path rest hcons
    rw [render, hfirst, hcons]
    rfl
  · intro text htext d hd
    have hnone : s.state.firstUnresolved? = none := by
      unfold render at htext
      cases hopen : s.state.firstUnresolved? with
      | none => rfl
      | some path =>
        rw [hopen] at htext
        cases htext
    obtain ⟨hsound', hcomplete⟩ := hd.complete hsound (State.firstUnresolved?_eq_none_iff.1 hnone)
    exact hcomplete.filled hsound'.level

/-- Of two repetitions the first one is filled, and then both are. -/
theorem unresolved_render_rows :
    rows.Parsed ∧
      ∃ s, Reachable rows s ∧ s.state.unresolved = ["r[1].x".toList] ∧
        s.render = .error (.session (.incomplete "r[1].x".toList)) ∧
        ∃ s', s' = s.perform (.change [(['r'], 1)] (.set ['x'] ['2'])) ∧ Reachable rows s' ∧
          s'.state.unresolved = [] ∧ s'.render = .ok ['1', '2', '3'] := by
  let s := (((new rows).perform
    (.change [] (.populate (fun _ _ => .ok .absent) ['r'] [0, 1] .html none))).perform
    (.change [(['r'], 0)] (.set ['x'] ['1']))).perform (.change [] (.set ['y'] ['3']))
  have hs : Reachable rows s := .perform (.perform (.perform .new _) _) _
  have hopen : s.state.unresolved = ["r[1].x".toList] := by decide +kernel
  obtain ⟨-, -, -, hfails, -⟩ := unresolved_render parsed_rows hs
  have hs' : Reachable rows (s.perform (.change [(['r'], 1)] (.set ['x'] ['2']))) := .perform hs _
  have hnone : (s.perform (.change [(['r'], 1)] (.set ['x'] ['2']))).state.unresolved = [] := by
    decide +kernel
  obtain ⟨-, -, hrenders, -, -⟩ := unresolved_render parsed_rows hs'
  have htext : (s.perform (.change [(['r'], 1)] (.set ['x'] ['2']))).state.render =
      ['1', '2', '3'] := by decide +kernel
  exact ⟨parsed_rows, s, hs, hopen, hfails _ [] hopen, _, rfl, hs', hnone,
    (hrenders hnone).trans (congrArg Except.ok htext)⟩

end Session

end Stencil
