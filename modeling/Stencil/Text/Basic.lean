/-!
# Texts

A text is a list of Unicode scalar values, so every count and every position in this library
is a count of characters.

**Cutting.** `after?` takes a given beginning off a text and `upTo?` a given ending. `split`
cuts at every occurrence of a character, `splitOnce` at the first one. `splitOn` cuts at the
occurrences of a whole word, found from left to right and never overlapping.

**Main facts.** `after?_eq_some_iff` and `upTo?_eq_some_iff` say exactly which texts can be
cut, `intersperse_splitOn` that cutting loses nothing, and `split_append` that cutting at a
character can be done in two steps.
-/

namespace Stencil

/-- A text as the list of its characters. -/
abbrev Text := List Char

namespace Text

/-- The text as a core string, for messages. -/
abbrev str (t : Text) : String := String.ofList t

/-- The decimal digits of a natural number. -/
def ofNat (n : Nat) : Text := Nat.toDigits 10 n

/-- The order of texts: by the first characters that differ, and a beginning before the whole. -/
def inOrder : Text → Text → Bool
  | [], _ => true
  | _ :: _, [] => false
  | a :: as, b :: bs => a.toNat < b.toNat || (a == b && inOrder as bs)

/-! ## Beginnings and endings -/

/-- What follows the beginning `p`, if the text begins with it. -/
def after? : Text → Text → Option Text
  | [], t => some t
  | _ :: _, [] => none
  | p :: ps, c :: cs => if p = c then after? ps cs else none

/-- What precedes the ending `p`, if the text ends with it. -/
def upTo? (p t : Text) : Option Text := (after? p.reverse t.reverse).map List.reverse

/-- The text begins with `p`. -/
def beginsWith (p t : Text) : Bool := (after? p t).isSome

/-- The text ends with `p`. -/
def endsWith (p t : Text) : Bool := (upTo? p t).isSome

/-- The word `p` occurs somewhere in the text. -/
def hasWord (p : Text) : Text → Bool
  | [] => p.isEmpty
  | c :: cs => beginsWith p (c :: cs) || hasWord p cs

theorem after?_eq_some_iff {p t r : Text} : after? p t = some r ↔ t = p ++ r := by
  induction p generalizing t with
  | nil => simp [after?, eq_comm]
  | cons a p ih =>
    cases t with
    | nil => simp [after?]
    | cons c t =>
      by_cases h : a = c
      · subst h; simp [after?, ih]
      · simp [after?, h, Ne.symm h]

@[simp] theorem after?_append (p r : Text) : after? p (p ++ r) = some r :=
  after?_eq_some_iff.2 rfl

theorem upTo?_eq_some_iff {p t r : Text} : upTo? p t = some r ↔ t = r ++ p := by
  simp only [upTo?, Option.map_eq_some_iff, after?_eq_some_iff]
  constructor
  · rintro ⟨s, hs, rfl⟩
    have := congrArg List.reverse hs
    simpa using this
  · rintro rfl
    exact ⟨r.reverse, by simp, by simp⟩

theorem beginsWith_iff {p t : Text} : beginsWith p t = true ↔ ∃ r, t = p ++ r := by
  simp [beginsWith, Option.isSome_iff_exists, after?_eq_some_iff]

theorem endsWith_iff {p t : Text} : endsWith p t = true ↔ ∃ r, t = r ++ p := by
  simp [endsWith, Option.isSome_iff_exists, upTo?_eq_some_iff]

theorem hasWord_iff {p t : Text} : hasWord p t = true ↔ ∃ a b, t = a ++ p ++ b := by
  induction t with
  | nil => simp [hasWord, List.isEmpty_iff]
  | cons c t ih =>
    simp only [hasWord, Bool.or_eq_true, beginsWith_iff, ih]
    constructor
    · rintro (⟨r, h⟩ | ⟨a, b, rfl⟩)
      · exact ⟨[], r, by simpa using h⟩
      · exact ⟨c :: a, b, by simp⟩
    · rintro ⟨a, b, h⟩
      cases a with
      | nil => exact .inl ⟨b, by simpa using h⟩
      | cons d a =>
        simp only [List.cons_append, List.cons.injEq] at h
        exact .inr ⟨a, b, h.2⟩

/-! ## Cutting at a character -/

/-- The pieces between the occurrences of `sep`; there is always at least one. -/
def split (sep : Char) : Text → List Text
  | [] => [[]]
  | c :: cs => if c = sep then [] :: split sep cs else (split sep cs).modifyHead (c :: ·)

/-- The parts before and after the first occurrence of `sep`. -/
def splitOnce (sep : Char) : Text → Option (Text × Text)
  | [] => none
  | c :: cs => if c = sep then some ([], cs) else (splitOnce sep cs).map fun (a, b) => (c :: a, b)

theorem split_ne_nil (sep : Char) (t : Text) : split sep t ≠ [] := by
  induction t with
  | nil => simp [split]
  | cons c t ih =>
    by_cases h : c = sep
    · simp [split, h]
    · cases hs : split sep t with
      | nil => exact absurd hs ih
      | cons => simp [split, h, hs]

theorem split_append (sep : Char) (a b : Text) :
    split sep (a ++ sep :: b) = split sep a ++ split sep b := by
  induction a with
  | nil => simp [split]
  | cons c a ih =>
    by_cases h : c = sep
    · simp [split, h, ih]
    · cases hs : split sep a with
      | nil => exact absurd hs (split_ne_nil sep a)
      | cons => simp [split, h, ih, hs]

theorem splitOnce_eq_some_iff {sep : Char} {t a b : Text} :
    splitOnce sep t = some (a, b) ↔ t = a ++ sep :: b ∧ sep ∉ a := by
  induction t generalizing a with
  | nil => simp [splitOnce]
  | cons c t ih =>
    by_cases h : c = sep
    · subst h
      cases a with
      | nil => simp [splitOnce, eq_comm]
      | cons d a => simp +contextual [splitOnce, eq_comm]
    · cases a with
      | nil => simp [splitOnce, h]
      | cons d a =>
        simp only [splitOnce, h, if_false, Option.map_eq_some_iff, Prod.mk.injEq,
          List.cons.injEq, List.cons_append, List.mem_cons, not_or]
        constructor
        · rintro ⟨⟨x, y⟩, hx, ⟨rfl, rfl⟩, rfl⟩
          obtain ⟨rfl, hn⟩ := ih.1 hx
          exact ⟨⟨rfl, rfl⟩, Ne.symm h, hn⟩
        · rintro ⟨⟨rfl, rfl⟩, -, hn⟩
          exact ⟨(a, b), ih.2 ⟨rfl, hn⟩, ⟨rfl, rfl⟩, rfl⟩

/-! ## Cutting at a word -/

/-- The pieces between the occurrences of `sep`, of which the first `skip` characters of the
text, the rest of an occurrence already found, are passed over. -/
def splitOnFrom (sep : Text) : Nat → Text → List Text
  | _, [] => [[]]
  | skip + 1, _ :: cs => splitOnFrom sep skip cs
  | 0, c :: cs =>
    if beginsWith sep (c :: cs) then [] :: splitOnFrom sep (sep.length - 1) cs
    else (splitOnFrom sep 0 cs).modifyHead (c :: ·)

/-- The pieces between the leftmost, non-overlapping occurrences of `sep`. -/
def splitOn (sep t : Text) : List Text := splitOnFrom sep 0 t

theorem splitOnFrom_ne_nil (sep : Text) (skip : Nat) (t : Text) :
    splitOnFrom sep skip t ≠ [] := by
  induction t generalizing skip with
  | nil => simp [splitOnFrom]
  | cons c t ih =>
    cases skip with
    | succ k => simpa [splitOnFrom] using ih k
    | zero =>
      rw [splitOnFrom]
      split
      · simp
      · cases hs : splitOnFrom sep 0 t with
        | nil => exact absurd hs (ih 0)
        | cons => simp

theorem splitOnFrom_drop (sep : Text) (skip : Nat) (t : Text) :
    splitOnFrom sep skip t = splitOnFrom sep 0 (t.drop skip) := by
  induction t generalizing skip with
  | nil => simp [splitOnFrom]
  | cons c t ih =>
    cases skip with
    | zero => simp
    | succ k => simp [splitOnFrom, ih k]

/-- Cutting at the first occurrence of a word. -/
theorem splitOn_cons {sep : Text} (hsep : sep ≠ []) (c : Char) (t : Text) :
    splitOn sep (c :: t) =
      match after? sep (c :: t) with
      | some r => [] :: splitOn sep r
      | none => (splitOn sep t).modifyHead (c :: ·) := by
  cases ha : after? sep (c :: t) with
  | none => simp [splitOn, splitOnFrom, beginsWith, ha]
  | some r =>
    have h := after?_eq_some_iff.1 ha
    cases sep with
    | nil => exact absurd rfl hsep
    | cons a sep =>
      simp only [List.cons_append, List.cons.injEq] at h
      obtain ⟨rfl, rfl⟩ := h
      simp [splitOn, splitOnFrom, beginsWith, ha, splitOnFrom_drop]

/-- **Cutting at a word loses nothing**: the pieces with the word between them are the text. -/
theorem intersperse_splitOn {sep : Text} (hsep : sep ≠ []) (t : Text) :
    ((splitOn sep t).intersperse sep).flatten = t := by
  suffices h : ∀ n (t : Text), t.length ≤ n → ((splitOn sep t).intersperse sep).flatten = t from
    h _ _ (Nat.le_refl _)
  intro n
  induction n with
  | zero =>
    intro t ht
    have : t = [] := List.eq_nil_of_length_eq_zero (by omega)
    subst this; simp [splitOn, splitOnFrom]
  | succ n ih =>
    intro t ht
    cases t with
    | nil => simp [splitOn, splitOnFrom]
    | cons c t =>
      rw [splitOn_cons hsep]
      cases ha : after? sep (c :: t) with
      | none =>
        have := ih t (by simpa using ht)
        cases hs : splitOn sep t with
        | nil => exact absurd hs (splitOnFrom_ne_nil sep 0 t)
        | cons s ss =>
          rw [hs] at this
          cases ss with
          | nil => simpa using this
          | cons s' ss => simpa using this
      | some r =>
        have h := after?_eq_some_iff.1 ha
        have hr : r.length ≤ n := by
          have h1 := congrArg List.length h
          have h2 := List.length_pos_iff.2 hsep
          simp only [List.length_cons, List.length_append] at h1 ht
          omega
        have := ih r hr
        cases hs : splitOn sep r with
        | nil => exact absurd hs (splitOnFrom_ne_nil sep 0 r)
        | cons s ss =>
          rw [hs] at this
          simp [h, hs, this]

end Text

end Stencil
