import Stencil.Text.Printable

/-!
# Quoted texts

The form in which an outline shows a literal text: between double quotes, with a backslash
before a quote and a backslash, letters for the commonest controls, and the code point in
braces for every other hidden character. A single quote stands as it is.
-/

namespace Stencil

namespace Text

/-- The hexadecimal digits of a number, in lower case. -/
def hex (n : Nat) : Text := Nat.toDigits 16 n

/-- One character inside quotes. -/
def quoteChar (c : Char) : Text :=
  match c with
  | '\x00' => ['\\', '0']
  | '\t' => ['\\', 't']
  | '\r' => ['\\', 'r']
  | '\n' => ['\\', 'n']
  | '"' => ['\\', '"']
  | '\\' => ['\\', '\\']
  | c => if isHidden c then ['\\', 'u', '\x7b'] ++ hex c.toNat ++ ['\x7d'] else [c]

/-- A text between double quotes. -/
def quoted (t : Text) : Text := '"' :: t.flatMap quoteChar ++ ['"']

end Text

end Stencil
