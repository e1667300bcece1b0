import Stencil.Proofs.Markup.Offsets

/-!
# Ditch blocks of a source

**Blocks** (`Ditch.Block`). A block goes from the first place where the ditch word begins to the end
of the next occurrence of the word, and behind it the search for blocks begins again. This says what
is cut out of a source without cutting it.

**Places outside blocks** (`Ditch.mem_outside_iff`). The places of the characters that are kept are
those that are in no block. The induction takes two segments at a time: the second one is the inside
of the first block (`Ditch.exists_block_of_cut`).

**Going back** (`Ditch.strip_written`). From the text without ditch blocks back to the source,
places keep their order and their characters; they come to all places outside blocks and to no
others, and the end comes to the end.
-/

namespace Stencil

namespace Ditch

/-! ## Blocks -/

/-- Of the places from `pos` on, `i` is the first one at which the word begins. -/
structure FirstAt (w t : Text) (pos i : Nat) : Prop where
  le : pos ≤ i
  begins : w <+: t.drop i
  least : ∀ j, pos ≤ j → w <+: t.drop j → i ≤ j

/-- A block of the source from `pos` on: from the first ditch word to the end of the next one, or a
block behind that one. -/
inductive Block (ditch source : Text) : Nat → Nat → Nat → Prop
  | here {pos i j : Nat} (opens : FirstAt ditch source pos i)
      (closes : FirstAt ditch source (i + ditch.length) j) :
      Block ditch source pos i (j + ditch.length)
  | later {pos i j start stop : Nat} (opens : FirstAt ditch source pos i)
      (closes : FirstAt ditch source (i + ditch.length) j)
      (h : Block ditch source (j + ditch.length) start stop) : Block ditch source pos start stop

variable {w x s t ditch source : Text} {pos i j k start stop : Nat}

theorem FirstAt.unique (h : FirstAt w t pos i) (h' : FirstAt w t pos j) : i = j :=
  Nat.le_antisymm (h.least j h'.le h'.begins) (h'.least i h.le h.begins)

namespace Block

theorem exists_firstAt (h : Block ditch source pos start stop) :
    ∃ i, FirstAt ditch source pos i := by
  cases h with
  | here opens closes => exact ⟨_, opens⟩
  | later opens closes h => exact ⟨_, opens⟩

theorem le_start (h : Block ditch source pos start stop) : pos ≤ start := by
  induction h with
  | here opens closes => exact opens.le
  | later opens closes h ih =>
    have := opens.le
    have := closes.le
    omega

/-- The first two ditch words make a block, and all others are behind it. -/
theorem iff_of_firstAt (opens : FirstAt ditch source pos i)
    (closes : FirstAt ditch source (i + ditch.length) j) :
    Block ditch source pos start stop ↔
      (start = i ∧ stop = j + ditch.length) ∨
        Block ditch source (j + ditch.length) start stop := by
  constructor
  · intro h
    cases h with
    | here opens' closes' =>
      obtain rfl := opens.unique opens'
      obtain rfl := closes.unique closes'
      exact .inl ⟨rfl, rfl⟩
    | later opens' closes' h =>
      obtain rfl := opens.unique opens'
      obtain rfl := closes.unique closes'
      exact .inr h
  · rintro (⟨rfl, rfl⟩ | h)
    · exact .here opens closes
    · exact .later opens closes h

end Block

/-! ## Cuts are at the first places -/

/-- A word that begins behind the front of a text stands in the rest of it. -/
theorem exists_of_begins (hw : w ≠ []) (hj : x.length ≤ j) (h : w <+: (x ++ t).drop j) :
    ∃ a b, t = a ++ w ++ b ∧ j = x.length + a.length := by
  obtain ⟨b, hb⟩ := h
  obtain ⟨n, rfl⟩ := Nat.exists_eq_add_of_le hj
  have hdrop : t.drop n = w ++ b := by
    rw [hb, ← List.drop_drop, List.drop_left]
  -- The word is not empty, so the place is not behind the end.
  have hn : n ≤ t.length := by
    apply Nat.le_of_not_lt
    intro hlt
    rw [List.drop_eq_nil_of_le (Nat.le_of_lt hlt)] at hdrop
    exact hw (List.append_eq_nil_iff.1 hdrop.symm).1
  refine ⟨t.take n, b, ?_, by simp [hn]⟩
  rw [List.append_assoc, ← hdrop, List.take_append_drop]

/-- The first cut of a text is at the first place where the word begins. -/
theorem firstAt_of_cut (hw : w ≠ []) (hsource : source = x ++ (s ++ w ++ t))
    (first : ∀ a b, s ++ w ++ t = a ++ w ++ b → s.length ≤ a.length) :
    FirstAt w source x.length (x.length + s.length) where
  le := Nat.le_add_right _ _
  begins := ⟨t, by simp [hsource]⟩
  least := by
    intro j hj hbegins
    rw [hsource] at hbegins
    obtain ⟨a, b, hab, rfl⟩ := exists_of_begins hw hj hbegins
    exact Nat.add_le_add_left (first a b hab) _

variable {gone : Text} {segments rest : List Text}

/-- **The second segment is the inside of the first block**, and the segments behind it are those of
the source behind that block. -/
theorem exists_block_of_cut (hw : ditch ≠ []) (hcut : CutAt ditch t (s :: gone :: rest))
    (hrest : rest ≠ []) (hsource : source = x ++ t) :
    ∃ y t', source = y ++ t' ∧ y.length = x.length + s.length + (gone.length + 2 * ditch.length) ∧
      CutAt ditch t' rest ∧ ∀ start stop, Block ditch source x.length start stop ↔
        (start = x.length + s.length ∧ stop = y.length) ∨
          Block ditch source y.length start stop := by
  cases hcut with
  | @cut _ t₁ _ first hcut =>
    cases hcut with
    | last => exact absurd rfl hrest
    | @cut _ t₂ _ first' hcut =>
      have hopens := firstAt_of_cut hw hsource first
      have hsource' : source = (x ++ s ++ ditch) ++ (gone ++ ditch ++ t₂) := by simp [hsource]
      have hcloses := firstAt_of_cut hw hsource' first'
      have hword : (x ++ s ++ ditch).length = x.length + s.length + ditch.length := by
        simp [Nat.add_assoc]
      have hstop : (x ++ s ++ ditch ++ gone ++ ditch).length =
          x.length + s.length + ditch.length + gone.length + ditch.length := by
        simp [Nat.add_assoc]
      rw [hword] at hcloses
      refine ⟨x ++ s ++ ditch ++ gone ++ ditch, t₂, by simp [hsource], by omega, hcut, ?_⟩
      intro start stop
      rw [hstop]
      exact Block.iff_of_firstAt hopens hcloses

/-! ## Places outside blocks -/

/-- **The places outside the ditch blocks are the places that are in no block.** -/
theorem mem_outside_iff (hw : ditch ≠ []) (hcut : CutAt ditch t segments)
    (hodd : segments.length % 2 = 1) (hsource : source = x ++ t) :
    k ∈ outside ditch.length x.length segments ↔ x.length ≤ k ∧ k < source.length ∧
      ∀ start stop, Block ditch source x.length start stop → k < start ∨ stop ≤ k := by
  induction segments using kept.induct generalizing x t with
  | case1 => cases hodd
  | case2 s =>
    cases hcut with
    | cut first h => cases h
    | last hno =>
      have hblock : ∀ start stop, ¬ Block ditch source x.length start stop := by
        intro start stop h
        obtain ⟨i, hi⟩ := h.exists_firstAt
        have hbegins := hi.begins
        rw [hsource] at hbegins
        obtain ⟨a, b, hab, -⟩ := exists_of_begins hw hi.le hbegins
        exact hno a b hab
      have hlen : source.length = x.length + s.length := by simp [hsource]
      simp [outside, hlen, hblock]
  | case3 s gone rest ih =>
    have hrest : rest ≠ [] := by
      intro hnil
      simp [hnil] at hodd
    obtain ⟨y, t', hy, hlen, hcut', hblock⟩ := exists_block_of_cut hw hcut hrest hsource
    have hle : y.length ≤ source.length := by simp [hy]
    have hih := ih hcut' (by simp at hodd; omega) hy
    rw [outside, ← hlen, List.mem_append, List.mem_range'_1, hih]
    constructor
    · rintro (⟨hk, hlt⟩ | ⟨hk, hlt, hout⟩)
      · refine ⟨hk, by omega, ?_⟩
        intro start stop h
        rcases (hblock start stop).1 h with ⟨rfl, -⟩ | h
        · exact .inl hlt
        · have := h.le_start
          omega
      · refine ⟨by omega, hlt, ?_⟩
        intro start stop h
        rcases (hblock start stop).1 h with ⟨-, rfl⟩ | h
        · exact .inr hk
        · exact hout start stop h
    · rintro ⟨hk, hlt, hout⟩
      rcases hout _ _ ((hblock _ _).2 (.inl ⟨rfl, rfl⟩)) with hk' | hk'
      · exact .inl ⟨hk, hk'⟩
      · refine .inr ⟨hk', hlt, ?_⟩
        intro start stop h
        exact hout start stop ((hblock start stop).2 (.inr h))

/-! ## Going back -/

theorem le_written (cuts : List Cut) (i : Nat) : i ≤ written cuts i := by
  induction cuts with
  | nil => exact Nat.le_refl i
  | cons c cuts ih =>
    by_cases hi : c.pos ≤ i
    · simp only [written, hi, if_true]
      omega
    · simp [written, hi]

/-- Going back keeps the order of places. -/
theorem written_lt_written (cuts : List Cut) (h : i < j) : written cuts i < written cuts j := by
  induction cuts with
  | nil => exact h
  | cons c cuts ih =>
    have hle := le_written cuts j
    by_cases hi : c.pos ≤ i
    · have hj : c.pos ≤ j := by omega
      simp [written, hi, hj, ih]
    · by_cases hj : c.pos ≤ j
      · simp only [written, hi, hj, if_true, if_false]
        omega
      · simp [written, hi, hj, h]

/-- Going back from the end of the text leads to the end of the source. -/
theorem written_end (hodd : segments.length % 2 = 1) (pos : Nat) :
    written (cuts ditch.length pos segments) (pos + (kept segments).length) =
      pos + (segments.intersperse ditch).flatten.length := by
  induction segments using kept.induct generalizing pos with
  | case1 => cases hodd
  | case2 s => simp [cuts, written, kept]
  | case3 s gone rest ih =>
    have hrest : rest ≠ [] := by
      intro hnil
      simp [hnil] at hodd
    have hih := ih (by simp at hodd; omega) (pos + s.length)
    have hle : pos + s.length ≤ pos + s.length + (kept rest).length := Nat.le_add_right _ _
    rw [cuts, kept, List.length_append, ← Nat.add_assoc, written, if_pos hle, hih,
      intersperse_cons ditch s gone hrest]
    simp only [List.length_append]
    omega

variable {text : Text} {cuts : List Cut}

/-- **Going back from the text without ditch blocks undoes the cutting.** -/
theorem strip_written (hditch : ditch ≠ []) (h : strip ditch source = .ok (text, cuts)) :
    (∀ i j, i < j → written cuts i < written cuts j) ∧
    (∀ k, (∃ i, i < text.length ∧ written cuts i = k) ↔ k < source.length ∧
      ∀ start stop, Block ditch source 0 start stop → k < start ∨ stop ≤ k) ∧
    (∀ i, i < text.length → source[written cuts i]? = text[i]?) ∧
    written cuts text.length = source.length := by
  have hcut := CutAt.splitOn hditch source
  have hsource := (Text.intersperse_splitOn hditch source).symm
  have hodd := strip_isOk_iff.1 ⟨_, h⟩
  rw [strip, if_neg (by omega)] at h
  generalize Text.splitOn ditch source = segments at hcut hsource hodd h
  cases h
  refine ⟨?_, ?_, ?_, ?_⟩
  · intro i j hij
    exact written_lt_written _ hij
  · intro k
    have hmem := mem_outside_iff (k := k) (x := []) hditch hcut hodd rfl
    rw [List.length_nil, ← map_written, List.mem_map] at hmem
    simpa using hmem
  · intro i hi
    exact getElem?_outside hsource (getElem?_outside_eq_written hi)
  · have hend : written (Ditch.cuts ditch.length 0 segments) (0 + (kept segments).length) =
        0 + (segments.intersperse ditch).flatten.length := written_end hodd 0
    rw [Nat.zero_add, Nat.zero_add, ← hsource] at hend
    exact hend

/-- Two blocks side by side at the start, and one at the end in which the word overlaps itself. -/
theorem strip_written_adjacent :
    ['-', '-'] ≠ [] ∧
    strip ['-', '-'] "--x----y--a---z--".toList = .ok (['a'], [⟨0, 5⟩, ⟨0, 5⟩, ⟨1, 6⟩]) ∧
    (∀ i j, i < j → written [⟨0, 5⟩, ⟨0, 5⟩, ⟨1, 6⟩] i < written [⟨0, 5⟩, ⟨0, 5⟩, ⟨1, 6⟩] j) ∧
    (∀ k, (∃ i, i < 1 ∧ written [⟨0, 5⟩, ⟨0, 5⟩, ⟨1, 6⟩] i = k) ↔ k < 17 ∧
      ∀ start stop, Block ['-', '-'] "--x----y--a---z--".toList 0 start stop →
        k < start ∨ stop ≤ k) ∧
    (∀ i, i < 1 → "--x----y--a---z--".toList[written [⟨0, 5⟩, ⟨0, 5⟩, ⟨1, 6⟩] i]? = ['a'][i]?) ∧
    written [⟨0, 5⟩, ⟨0, 5⟩, ⟨1, 6⟩] 1 = 17 := by
  have hne : ['-', '-'] ≠ [] := by decide
  have hstrip : strip ['-', '-'] "--x----y--a---z--".toList =
      .ok (['a'], [⟨0, 5⟩, ⟨0, 5⟩, ⟨1, 6⟩]) := by
    rfl
  exact ⟨hne, hstrip, strip_written hne hstrip⟩

end Ditch

end Stencil
