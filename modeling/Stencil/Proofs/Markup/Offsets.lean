import Stencil.Markup.Position
import Stencil.Proofs.Markup.Lossless

/-!
# From the text without ditch blocks back to the source

**Places outside ditch blocks** (`Ditch.outside`). The places of a source whose characters are kept.
Going back to the source with `Ditch.written` goes through all of them in order (`map_written`), and
the character there is the one that was kept (`getElem?_outside`).

**Positions** (`Position.Marks`). What it is for a line and a column to be those of a character:
so many lines end before its line, and so many characters of the line stand before it. Positions
come in the order of their characters (`Position.Marks.before_iff`).
-/

namespace Stencil

/-! ## Places outside ditch blocks -/

namespace Ditch

/-- The places outside the ditch blocks of a source, for a ditch word of length `w` and from `pos`
on. -/
def outside (w pos : Nat) : List Text → List Nat
  | [] => []
  | [s] => List.range' pos s.length
  | s :: gone :: rest =>
    List.range' pos s.length ++ outside w (pos + s.length + (gone.length + 2 * w)) rest

variable {w pos i k : Nat} {segments : List Text}

theorem outside_add (w pos n : Nat) (segments : List Text) :
    outside w (n + pos) segments = (outside w pos segments).map (n + ·) := by
  induction segments using kept.induct generalizing pos with
  | case1 => rfl
  | case2 s => simp [outside, List.map_add_range']
  | case3 s gone rest ih =>
    have hpos : n + pos + s.length + (gone.length + 2 * w) =
        n + (pos + s.length + (gone.length + 2 * w)) := by
      omega
    rw [outside, outside, List.map_append, List.map_add_range', hpos, ih]

/-- **Going back to the source goes through the places outside its ditch blocks**, one after
another. -/
theorem map_written (w pos : Nat) (segments : List Text) :
    (List.range' pos (kept segments).length).map (written (cuts w pos segments)) =
      outside w pos segments := by
  induction segments using kept.induct generalizing pos with
  | case1 => rfl
  | case2 s =>
    have hid : written (cuts w pos [s]) = id := rfl
    rw [hid, List.map_id]
    rfl
  | case3 s gone rest ih =>
    -- Before the block nothing changes, behind it all places move by its length.
    have hbefore : (List.range' pos s.length).map (written (cuts w pos (s :: gone :: rest))) =
        List.range' pos s.length := by
      refine (List.map_congr_left fun k hk => ?_).trans (List.map_id _)
      have hlt : ¬ pos + s.length ≤ k := by
        have := (List.mem_range'_1.1 hk).2
        omega
      simp [cuts, written, hlt]
    have hbehind : (List.range' (pos + s.length) (kept rest).length).map
          (written (cuts w pos (s :: gone :: rest))) =
        outside w (pos + s.length + (gone.length + 2 * w)) rest := by
      rw [Nat.add_comm (pos + s.length), outside_add, ← ih, List.map_map]
      refine List.map_congr_left fun k hk => ?_
      have hle : pos + s.length ≤ k := (List.mem_range'_1.1 hk).1
      simp [cuts, written, hle]
    rw [kept, List.length_append, ← List.range'_append_1, List.map_append, hbefore, hbehind,
      outside]

theorem getElem?_outside_eq_written (h : k < (kept segments).length) :
    (outside w 0 segments)[k]? = some (written (cuts w 0 segments) k) := by
  rw [← map_written, List.getElem?_map, List.getElem?_range' h]
  simp

/-- The source between segments that are kept and dropped in turn. -/
theorem intersperse_cons (ditch s gone : Text) {rest : List Text} (h : rest ≠ []) :
    ((s :: gone :: rest).intersperse ditch).flatten =
      s ++ (ditch ++ gone ++ ditch) ++ (rest.intersperse ditch).flatten := by
  cases rest with
  | nil => exact absurd rfl h
  | cons r rest => simp

/-- **The characters outside the ditch blocks are those that are kept.** -/
theorem map_getElem?_outside {ditch x : Text} {source : Text}
    (h : source = x ++ (segments.intersperse ditch).flatten) :
    (outside ditch.length x.length segments).map (source[·]?) = (kept segments).map some := by
  -- The places of a stretch of text have its characters.
  have hstretch : ∀ {x s y : Text}, source = x ++ s ++ y →
      (List.range' x.length s.length).map (source[·]?) = s.map some := by
    intro x s y hxy
    apply List.ext_getElem
    · simp
    · intro k hk hk'
      have hks : k < s.length := by simpa using hk'
      have hat : (x ++ s ++ y)[x.length + k]? = s[k]? := by
        rw [List.append_assoc, List.getElem?_append_right (Nat.le_add_right _ _),
          Nat.add_sub_cancel_left, List.getElem?_append_left hks]
      simp [hxy ▸ hat, hks]
  induction segments using kept.induct generalizing x with
  | case1 => rfl
  | case2 s =>
    have hs : source = x ++ s ++ [] := by simpa using h
    exact hstretch hs
  | case3 s gone rest ih =>
    cases rest with
    | nil =>
      have hs : source = x ++ s ++ (ditch ++ gone) := by simpa using h
      simpa [outside, kept] using hstretch hs
    | cons r rest =>
      rw [intersperse_cons ditch s gone (List.cons_ne_nil r rest)] at h
      have hs : source = x ++ s ++ (ditch ++ gone ++ ditch ++
          ((r :: rest).intersperse ditch).flatten) := by
        simpa using h
      have hrest : source = (x ++ s ++ (ditch ++ gone ++ ditch)) ++
          ((r :: rest).intersperse ditch).flatten := by
        simpa using h
      have hlen : (x ++ s ++ (ditch ++ gone ++ ditch)).length =
          x.length + s.length + (gone.length + 2 * ditch.length) := by
        simp
        omega
      have htail := ih hrest
      rw [hlen] at htail
      rw [outside, kept, List.map_append, List.map_append, hstretch hs, htail]

/-- The character at a place outside the ditch blocks. -/
theorem getElem?_outside {ditch source : Text}
    (h : source = (segments.intersperse ditch).flatten)
    (hi : (outside ditch.length 0 segments)[k]? = some i) : source[i]? = (kept segments)[k]? := by
  have hmap := congrArg (·[k]?) (map_getElem?_outside (x := []) h)
  simp only [List.length_nil, List.getElem?_map, hi, Option.map_some] at hmap
  cases hk : (kept segments)[k]? with
  | none =>
    rw [hk] at hmap
    cases hmap
  | some c =>
    rw [hk] at hmap
    exact Option.some.inj hmap

end Ditch

/-! ## Positions -/

namespace Position

/-- The position is that of the character with `offset` characters before it: so many lines end
before its line, and so many characters of the line stand before it. -/
inductive Marks (source : Text) (offset : Nat) : Position → Prop
  | mk {lines line rest : Text} (split : source = lines ++ line ++ rest)
      (length : (lines ++ line).length = offset) (ended : lines = [] ∨ ['\n'] <:+ lines)
      (unbroken : '\n' ∉ line) : Marks source offset ⟨lines.count '\n' + 1, line.length + 1⟩

/-- The position comes first: in an earlier line, or further left in the same line. -/
def Before (a b : Position) : Prop := a.line < b.line ∨ a.line = b.line ∧ a.column < b.column

variable {source : Text} {i j : Nat} {a b : Position}

/-- A line that ends in nothing but its own characters. -/
theorem takeWhile_reverse_append {lines line : Text} (hended : lines = [] ∨ ['\n'] <:+ lines)
    (hline : '\n' ∉ line) :
    (lines ++ line).reverse.takeWhile (· ≠ '\n') = line.reverse := by
  have hall : ∀ c ∈ line.reverse, decide (c ≠ '\n') = true := by
    intro c hc
    refine decide_eq_true fun he => hline ?_
    rw [← he]
    exact List.mem_reverse.1 hc
  rw [List.reverse_append, List.takeWhile_append_of_pos hall]
  rcases hended with rfl | ⟨front, rfl⟩
  · simp
  · simp

theorem Marks.eq_of (h : Marks source i a) : a = of source i ∧ i ≤ source.length := by
  cases h with
  | @mk lines line rest split length ended unbroken =>
    have htake : source.take i = lines ++ line := by
      rw [split, ← length, List.take_left]
    have hcount : (lines ++ line).count '\n' = lines.count '\n' := by
      rw [List.count_append, List.count_eq_zero_of_not_mem unbroken, Nat.add_zero]
    constructor
    · unfold of
      dsimp only
      rw [htake, hcount, takeWhile_reverse_append ended unbroken, List.length_reverse]
    · rw [split, ← length]
      simp

theorem marks_of (h : i ≤ source.length) : Marks source i (of source i) := by
  have hsplit := List.takeWhile_append_dropWhile (p := (· ≠ '\n')) (l := (source.take i).reverse)
  have hline : '\n' ∉ ((source.take i).reverse.takeWhile (· ≠ '\n')).reverse := by
    intro hc
    have := List.all_eq_true.1 List.all_takeWhile _ (List.mem_reverse.1 hc)
    simp at this
  have hended : ((source.take i).reverse.dropWhile (· ≠ '\n')).reverse = [] ∨
      ['\n'] <:+ ((source.take i).reverse.dropWhile (· ≠ '\n')).reverse := by
    cases hd : (source.take i).reverse.dropWhile (· ≠ '\n') with
    | nil => exact .inl rfl
    | cons c r =>
      have hne : (source.take i).reverse.dropWhile (· ≠ '\n') ≠ [] := by
        rw [hd]
        exact List.cons_ne_nil c r
      have hhead := List.head_dropWhile_not (fun c => decide (c ≠ '\n')) hne
      have hc : c = '\n' := by
        simp only [hd, List.head_cons] at hhead
        simpa using hhead
      rw [hc]
      exact .inr ⟨r.reverse, by simp⟩
  generalize (source.take i).reverse.takeWhile (· ≠ '\n') = u at hsplit hline
  generalize (source.take i).reverse.dropWhile (· ≠ '\n') = v at hsplit hended
  have htake : source.take i = v.reverse ++ u.reverse := by
    rw [← List.reverse_append, hsplit, List.reverse_reverse]
  have hlen : (v.reverse ++ u.reverse).length = i := by
    rw [← htake, List.length_take]
    omega
  have hmarks : Marks source i ⟨v.reverse.count '\n' + 1, u.reverse.length + 1⟩ := by
    have hsource : source = v.reverse ++ u.reverse ++ source.drop i := by
      rw [← htake, List.take_append_drop]
    exact .mk hsource hlen hended hline
  rw [← hmarks.eq_of.1]
  exact hmarks

theorem Before.not_before (h : a.Before b) : ¬ b.Before a := by
  unfold Before at h ⊢
  omega

/-- A character comes before another one if it has fewer characters before it. -/
theorem of_before_of (h : i < j) (hj : j ≤ source.length) :
    (of source i).Before (of source j) := by
  have hsplit : source.take j = source.take i ++ (source.take j).drop i := by
    have htake : source.take i = (source.take j).take i := by
      rw [List.take_take, Nat.min_eq_left (Nat.le_of_lt h)]
    rw [htake, List.take_append_drop]
  have hne : (source.take j).drop i ≠ [] := by
    intro he
    have hlen := congrArg List.length he
    simp only [List.length_drop, List.length_take, List.length_nil] at hlen
    omega
  generalize (source.take j).drop i = mid at hsplit hne
  have hcount : (source.take j).count '\n' = (source.take i).count '\n' + mid.count '\n' := by
    rw [hsplit, List.count_append]
  by_cases hn : '\n' ∈ mid
  · have hpos := List.count_pos_iff.2 hn
    refine .inl ?_
    show (source.take i).count '\n' + 1 < (source.take j).count '\n' + 1
    omega
  · have hzero := List.count_eq_zero_of_not_mem hn
    have hall : ∀ c ∈ mid.reverse, decide (c ≠ '\n') = true := by
      intro c hc
      refine decide_eq_true fun he => hn ?_
      rw [← he]
      exact List.mem_reverse.1 hc
    have hpos := List.length_pos_iff.2 hne
    refine .inr ⟨?_, ?_⟩
    · show (source.take i).count '\n' + 1 = (source.take j).count '\n' + 1
      omega
    · unfold of
      dsimp only
      rw [hsplit, List.reverse_append, List.takeWhile_append_of_pos hall]
      simp only [List.length_append, List.length_reverse]
      omega

/-- **Positions come in the order of their characters.** -/
theorem Marks.before_iff (ha : Marks source i a) (hb : Marks source j b) : a.Before b ↔ i < j := by
  obtain ⟨rfl, hi⟩ := ha.eq_of
  obtain ⟨rfl, hj⟩ := hb.eq_of
  constructor
  · intro h
    by_cases hij : i < j
    · exact hij
    · rcases Nat.lt_or_eq_of_le (Nat.le_of_not_lt hij) with hji | rfl
      · exact absurd (of_before_of hji hi) h.not_before
      · exact absurd h h.not_before
  · exact fun h => of_before_of h hj

theorem Marks.eq_iff (ha : Marks source i a) (hb : Marks source j b) : a = b ↔ i = j := by
  constructor
  · rintro rfl
    have hij : ¬ i < j := fun h => ((ha.before_iff hb).2 h).not_before ((ha.before_iff hb).2 h)
    have hji : ¬ j < i := fun h => ((hb.before_iff ha).2 h).not_before ((hb.before_iff ha).2 h)
    omega
  · rintro rfl
    rw [ha.eq_of.1, hb.eq_of.1]

end Position

end Stencil
