import Stencil.Escape

/-!
# Texts escaped for scripts

**Reading** (`Escape.readLiteral`). A reader stands behind the opening quote of a string literal and
goes on to the quote that closes it. It takes an escape for the character that it stands for, and
refuses what is no string literal: an escape that it does not know, a line that ends, or a text that
ends before the quote.

**Spelling** (`Escape.Spells`). The body of a literal spells a text if it is read as that text and
left at the quote behind it, in either kind of quotes and whatever follows, and if none of its
characters means anything to the page around the script. `Escape.spells_js` says this of every
escaped text. A code always has four digits, so no character behind it can be taken for a fifth.
-/

namespace Stencil

namespace Escape

/-- The quotes of a string literal. -/
def quotes : List Char := ['"', '\'']

/-- The characters that end a line of a script, besides carriage return and line feed. -/
def separators : List Char := ['\u2028', '\u2029']

/-- The characters that tags and entities begin and end with. -/
def markup : List Char := ['<', '>', '&']

/-- The character that a letter behind a backslash stands for. -/
def letter? : Char → Option Char
  | '\\' => some '\\'
  | '\'' => some '\''
  | '"' => some '"'
  | 'n' => some '\n'
  | 'r' => some '\r'
  | 't' => some '\t'
  | _ => none

/-- The character that hexadecimal digits stand for. Half a surrogate pair is none. -/
def code? (digits : Text) : Option Char :=
  (digits.mapM Text.hexDigit?).bind fun ds =>
    let n := ds.foldl (fun n d => n * 16 + d) 0
    if n.isValidChar then some (Char.ofNat n) else none

/-- Reads a string literal from behind its opening quote: the text that it stands for, and what
follows the quote that closes it. -/
def readLiteral (quote : Char) : Text → Option (Text × Text)
  | '\\' :: 'u' :: a :: b :: c :: d :: rest =>
    (code? [a, b, c, d]).bind fun x => (readLiteral quote rest).map (Prod.map (x :: ·) id)
  | '\\' :: letter :: rest =>
    (letter? letter).bind fun x => (readLiteral quote rest).map (Prod.map (x :: ·) id)
  | c :: rest =>
    if c = quote then some ([], rest)
    else if c = '\\' ∨ Text.isBreak c = true ∨ c ∈ separators then none
    else (readLiteral quote rest).map (Prod.map (c :: ·) id)
  | [] => none

/-- A character that neither controls anything nor ends a line nor is markup. -/
structure Plain (c : Char) : Prop where
  noControl : Text.isControl c = false
  noSeparator : c ∉ separators
  noMarkup : c ∉ markup

/-- The body of a string literal stands for a text, and has plain characters only. -/
structure Spells (body raw : Text) : Prop where
  reads : ∀ quote ∈ quotes, ∀ rest, readLiteral quote (body ++ quote :: rest) = some (raw, rest)
  plain : ∀ c ∈ body, Plain c

/-! ## Digits -/

theorem hexDigit?_digitChar {d : Nat} (h : d < 16) : Text.hexDigit? (Nat.digitChar d) = some d := by
  have hall : ∀ d : Fin 16, Text.hexDigit? (Nat.digitChar d) = some d.val := by decide
  exact hall ⟨d, h⟩

/-- **Four digits are read as the character that they were written for.** -/
theorem code?_hex4 {c : Char} (h : c.toNat < 0x10000) : code? (hex4 c.toNat) = some c := by
  have hdigits : (hex4 c.toNat).mapM Text.hexDigit? = some
      [c.toNat / 0x1000 % 16, c.toNat / 0x100 % 16, c.toNat / 0x10 % 16, c.toNat % 16] := by
    simp [hex4, hexDigit?_digitChar (Nat.mod_lt _ (by decide : 16 > 0))]
  have hsum : (((0 * 16 + c.toNat / 0x1000 % 16) * 16 + c.toNat / 0x100 % 16) * 16 +
      c.toNat / 0x10 % 16) * 16 + c.toNat % 16 = c.toNat := by
    omega
  have hvalid : c.toNat.isValidChar := c.valid
  unfold code?
  rw [hdigits, Option.bind_some]
  simp only [List.foldl_cons, List.foldl_nil, hsum]
  rw [if_pos hvalid, Char.ofNat_toNat]

/-! ## One character -/

/-- The characters that are written as a backslash and a letter. -/
def lettered : List Char := ['\\', '"', '\'', '\n', '\r', '\t']

variable {c d quote : Char} {rest : Text}

theorem plain_iff : Plain c ↔ needsCode c = false := by
  simp only [needsCode, Bool.or_eq_false_iff, beq_eq_false_iff_ne]
  constructor
  · intro h
    have hsep := h.noSeparator
    have hmarkup := h.noMarkup
    simp only [separators, markup, List.mem_cons, List.not_mem_nil, or_false, not_or] at hsep hmarkup
    obtain ⟨hline, hpar⟩ := hsep
    obtain ⟨hlt, hgt, hamp⟩ := hmarkup
    exact ⟨⟨⟨⟨⟨hlt, hgt⟩, hamp⟩, hline⟩, hpar⟩, h.noControl⟩
  · rintro ⟨⟨⟨⟨⟨hlt, hgt⟩, hamp⟩, hline⟩, hpar⟩, hcontrol⟩
    exact ⟨hcontrol, by simp [separators, hline, hpar], by simp [markup, hlt, hgt, hamp]⟩

instance : Decidable (Plain c) := decidable_of_iff _ plain_iff.symm

/-- A character is written with a letter, with a code, or as it stands. -/
theorem jsChar_cases (c : Char) :
    (∃ letter, jsChar c = ['\\', letter] ∧ letter ≠ 'u' ∧ letter? letter = some c ∧
        Plain letter) ∨
      (needsCode c = true ∧ jsChar c = '\\' :: 'u' :: hex4 c.toNat) ∨
      (c ∉ lettered ∧ Plain c ∧ jsChar c = [c]) := by
  by_cases h : c ∈ lettered
  · left
    simp only [lettered, List.mem_cons, List.not_mem_nil, or_false] at h
    rcases h with rfl | rfl | rfl | rfl | rfl | rfl <;> exact ⟨_, rfl, by decide, rfl, by decide⟩
  · have hjs : jsChar c = if needsCode c then '\\' :: 'u' :: hex4 c.toNat else [c] := by
      unfold jsChar
      split <;> first | rfl | exact absurd (by decide) h
    right
    cases hc : needsCode c with
    | true => exact .inl ⟨rfl, by rw [hjs, hc, if_pos rfl]⟩
    | false => exact .inr ⟨h, plain_iff.2 hc, by rw [hjs, hc, if_neg Bool.false_ne_true]⟩

theorem lt_of_needsCode (h : needsCode c = true) : c.toNat < 0x10000 := by
  simp only [needsCode, Text.isControl, Bool.or_eq_true, Bool.and_eq_true, beq_iff_eq,
    decide_eq_true_eq] at h
  rcases h with ((((rfl | rfl) | rfl) | rfl) | rfl) | h
  · decide
  · decide
  · decide
  · decide
  · decide
  · omega

theorem readLiteral_letter (h : d ≠ 'u') (hd : letter? d = some c) :
    readLiteral quote ('\\' :: d :: rest) =
      (readLiteral quote rest).map (Prod.map (c :: ·) id) := by
  rw [readLiteral, hd, Option.bind_some]
  intro a b c e rest' he
  exact absurd he h

theorem readLiteral_code {digits : Text} (h : code? digits = some c) (hlen : digits.length = 4) :
    readLiteral quote ('\\' :: 'u' :: (digits ++ rest)) =
      (readLiteral quote rest).map (Prod.map (c :: ·) id) := by
  match digits, hlen with
  | [a, b, d, e], _ =>
    show readLiteral quote ('\\' :: 'u' :: a :: b :: d :: e :: rest) = _
    rw [readLiteral, h, Option.bind_some]

theorem readLiteral_plain (h : Plain c) (hq : c ≠ quote) (hb : c ≠ '\\') :
    readLiteral quote (c :: rest) = (readLiteral quote rest).map (Prod.map (c :: ·) id) := by
  have hbreak : ¬ Text.isBreak c = true := fun hbr => by
    have hcontrol := Text.isControl_of_isBreak hbr
    rw [h.noControl] at hcontrol
    cases hcontrol
  rw [readLiteral, if_neg hq, if_neg (by simp [hb, hbreak, h.noSeparator])] <;> simp [hb]

theorem readLiteral_quote (h : quote ∈ quotes) :
    readLiteral quote (quote :: rest) = some ([], rest) := by
  simp only [quotes, List.mem_cons, List.not_mem_nil, or_false] at h
  rcases h with rfl | rfl <;> rfl

/-- **What a character is written as is read as that character**, whatever follows. -/
theorem readLiteral_jsChar (hq : quote ∈ quotes) (c : Char) (rest : Text) :
    readLiteral quote (jsChar c ++ rest) = (readLiteral quote rest).map (Prod.map (c :: ·) id) := by
  rcases jsChar_cases c with ⟨d, hjs, hu, hd, -⟩ | ⟨hc, hjs⟩ | ⟨hl, hc, hjs⟩ <;> rw [hjs]
  · exact readLiteral_letter hu hd
  · exact readLiteral_code (code?_hex4 (lt_of_needsCode hc)) rfl
  · refine readLiteral_plain hc ?_ ?_
    · rintro rfl
      simp only [quotes, List.mem_cons, List.not_mem_nil, or_false] at hq
      rcases hq with rfl | rfl <;> exact hl (by decide)
    · rintro rfl
      exact hl (by decide)

theorem plain_of_mem_hex4 {n : Nat} (h : d ∈ hex4 n) : Plain d := by
  have hall : ∀ k : Fin 16, Plain (Nat.digitChar k) := by decide
  obtain ⟨k, -, rfl⟩ := List.mem_map.1 h
  exact hall ⟨k % 16, Nat.mod_lt _ (by decide)⟩

/-- A character is written in plain ones. -/
theorem plain_of_mem_jsChar (h : d ∈ jsChar c) : Plain d := by
  rcases jsChar_cases c with ⟨letter, hjs, -, -, hplain⟩ | ⟨-, hjs⟩ | ⟨-, hplain, hjs⟩ <;> rw [hjs] at h
  · rcases List.mem_cons.1 h with rfl | h
    · decide
    · rw [List.mem_singleton.1 h]
      exact hplain
  · rcases List.mem_cons.1 h with rfl | h
    · decide
    rcases List.mem_cons.1 h with rfl | h
    · decide
    · exact plain_of_mem_hex4 h
  · rw [List.mem_singleton.1 h]
    exact hplain

/-! ## Texts -/

theorem readLiteral_js (hq : quote ∈ quotes) (t rest : Text) :
    readLiteral quote (js t ++ quote :: rest) = some (t, rest) := by
  induction t with
  | nil => exact readLiteral_quote hq
  | cons c t ih =>
    have hjs : js (c :: t) = jsChar c ++ js t := List.flatMap_cons
    rw [hjs, List.append_assoc, readLiteral_jsChar hq, ih]
    rfl

/-- **What is escaped for a script spells the text in a string literal.** In quotes of either kind,
and before whatever follows, it is read as the text itself and the literal ends at its own quote; and
it holds no control character, no line separator and no markup. -/
theorem spells_js (t : Text) :
    standardEscaper .js t = .ok (js t) ∧ Spells (js t) t := by
  refine ⟨rfl, fun quote hq rest => readLiteral_js hq t rest, fun d hd => ?_⟩
  obtain ⟨c, -, hc⟩ := List.mem_flatMap.1 hd
  exact plain_of_mem_jsChar hc

/-- A code with a digit behind it, and a text that looks like a code. -/
example : js ['\x7f', '0', '\\', 'u', '0'] = "\\u007f0\\\\u0".toList ∧
    readLiteral '"' "\\u007f0\\\\u0\";".toList = some (['\x7f', '0', '\\', 'u', '0'], [';']) := by
  decide

end Escape

end Stencil
