import Stencil.Text.Basic

/-!
# Classes of characters

**Blank** (`isBlank`). The 25 characters with the Unicode property `White_Space`.

**Control** (`isControl`). The 65 characters of the general category `Cc`: the two control
ranges and the delete character.

**Line breaks** (`isBreak`). Carriage return and line feed only.

**Hexadecimal digits** (`hexDigit?`). In either case.
-/

namespace Stencil

namespace Text

/-- White space, in the sense of the Unicode property `White_Space`. -/
def isBlank (c : Char) : Bool :=
  let n := c.toNat
  (9 ≤ n && n ≤ 13) || n == 0x20 || n == 0x85 || n == 0xA0 || n == 0x1680 ||
    (0x2000 ≤ n && n ≤ 0x200A) || n == 0x2028 || n == 0x2029 || n == 0x202F || n == 0x205F ||
    n == 0x3000

/-- A control character: general category `Cc`. -/
def isControl (c : Char) : Bool :=
  let n := c.toNat
  n ≤ 0x1F || (0x7F ≤ n && n ≤ 0x9F)

/-- A character that no token and no tag may run across. -/
def isBreak (c : Char) : Bool := c == '\r' || c == '\n'

/-- The value of a hexadecimal digit. -/
def hexDigit? (c : Char) : Option Nat :=
  if '0' ≤ c ∧ c ≤ '9' then some (c.toNat - '0'.toNat)
  else if 'a' ≤ c ∧ c ≤ 'f' then some (c.toNat - 'a'.toNat + 10)
  else if 'A' ≤ c ∧ c ≤ 'F' then some (c.toNat - 'A'.toNat + 10)
  else none

/-- The text without the blanks at its end. -/
def trimEnd (t : Text) : Text := (t.reverse.dropWhile isBlank).reverse

/-- The text without the blanks at its start. -/
def trimStart (t : Text) : Text := t.dropWhile isBlank

theorem isBlank_of_isWhitespace {c : Char} (h : c.isWhitespace = true) : isBlank c = true := by
  simp only [Char.isWhitespace, Bool.or_eq_true, decide_eq_true_eq] at h
  rcases h with (((rfl | rfl) | rfl) | rfl) <;> decide

theorem isControl_of_isBreak {c : Char} (h : isBreak c = true) : isControl c = true := by
  simp only [isBreak, Bool.or_eq_true, beq_iff_eq] at h
  rcases h with rfl | rfl <;> decide

/-- The blanks cut off at the end are all that is lost. -/
theorem trimEnd_append_blanks (t : Text) :
    ∃ w : Text, t = trimEnd t ++ w ∧ ∀ c ∈ w, isBlank c = true := by
  refine ⟨(t.reverse.takeWhile isBlank).reverse, ?_, ?_⟩
  · rw [trimEnd, ← List.reverse_append, List.takeWhile_append_dropWhile, List.reverse_reverse]
  · intro c hc
    rw [List.mem_reverse] at hc
    exact List.all_eq_true.1 (List.all_takeWhile (p := isBlank) (l := t.reverse)) c hc

/-- The blanks cut off at the start are all that is lost. -/
theorem blanks_append_trimStart (t : Text) :
    ∃ w : Text, t = w ++ trimStart t ∧ ∀ c ∈ w, isBlank c = true :=
  ⟨t.takeWhile isBlank, by rw [trimStart, List.takeWhile_append_dropWhile],
    fun c hc => List.all_eq_true.1 (List.all_takeWhile (p := isBlank) (l := t)) c hc⟩

end Text

end Stencil
