import Stencil.Text.Class
import Stencil.Text.Quoted

/-!
# Escaping

**Kinds** (`EscapeKind`). How a value is made safe for the place where it is inserted: as plain
text, for HTML, or for a JavaScript string. A kind may be left open; `or` supplies another one.

**HTML.** The five characters that can end a text or an attribute value become entities.

**JavaScript.** Quotes and backslashes are escaped, line ends and tabs get their letter, and
every other control, both Unicode line separators and `<`, `>`, `&` become a `u` escape of four
digits, so that the result neither ends a string literal nor a script element.

**Escapers** (`Escaper`). Any function from a kind and a text to a text may stand in for
`standardEscaper`, and may fail.
-/

namespace Stencil

/-- How a value is escaped. -/
inductive EscapeKind where
  | unspecified
  | text
  | html
  | js
  deriving DecidableEq, Repr

namespace EscapeKind

/-- The word for a kind in a template; there is none for an open kind. -/
def token? : EscapeKind → Option Text
  | .unspecified => none
  | .text => some ['t', 'e', 'x', 't']
  | .html => some ['h', 't', 'm', 'l']
  | .js => some ['j', 's']

/-- The name of a kind in messages. -/
def name : EscapeKind → String
  | .unspecified => "unspecified"
  | .text => "text"
  | .html => "html"
  | .js => "js"

/-- The kind that a word in a template stands for. -/
def ofToken? (t : Text) : Option EscapeKind :=
  [text, html, js].find? fun k => k.token? = some t

/-- The kind is not left open. -/
def isSpecified (k : EscapeKind) : Bool := k != .unspecified

/-- The kind itself, or another one if it is open. -/
def or (k other : EscapeKind) : EscapeKind := if k.isSpecified then k else other

theorem ofToken?_eq_some_iff {t : Text} {k : EscapeKind} :
    ofToken? t = some k ↔ k.token? = some t := by
  constructor
  · intro h
    simpa using List.find?_some h
  · intro h
    cases k with
    | unspecified => simp [token?] at h
    | text | html | js => simp only [token?, Option.some.injEq] at h; subst h; rfl

end EscapeKind

/-- Why a text could not be escaped. -/
structure EscapeError where
  kind : EscapeKind
  reason : Text
  deriving DecidableEq, Repr

def EscapeError.message (e : EscapeError) : String :=
  "cannot escape for " ++ e.kind.name ++ ": " ++ e.reason.str

/-- Makes a text safe for a kind of place. -/
abbrev Escaper := EscapeKind → Text → Except EscapeError Text

namespace Escape

/-! ## HTML -/

/-- One character in HTML. -/
def htmlChar : Char → Text
  | '&' => ['&', 'a', 'm', 'p', ';']
  | '<' => ['&', 'l', 't', ';']
  | '>' => ['&', 'g', 't', ';']
  | '"' => ['&', 'q', 'u', 'o', 't', ';']
  | '\'' => ['&', '#', 'x', '2', '7', ';']
  | c => [c]

def html (t : Text) : Text := t.flatMap htmlChar

/-! ## JavaScript -/

/-- The last four hexadecimal digits of a code point. -/
def hex4 (n : Nat) : Text :=
  [n / 0x1000, n / 0x100, n / 0x10, n].map fun d => Nat.digitChar (d % 16)

/-- A character that a script must not contain as it is. -/
def needsCode (c : Char) : Bool :=
  c == '<' || c == '>' || c == '&' || c == '\u2028' || c == '\u2029' || Text.isControl c

/-- One character inside a JavaScript string. -/
def jsChar : Char → Text
  | '\\' => ['\\', '\\']
  | '"' => ['\\', '"']
  | '\'' => ['\\', '\'']
  | '\n' => ['\\', 'n']
  | '\r' => ['\\', 'r']
  | '\t' => ['\\', 't']
  | c => if needsCode c then '\\' :: 'u' :: hex4 c.toNat else [c]

def js (t : Text) : Text := t.flatMap jsChar

theorem html_append (a b : Text) : html (a ++ b) = html a ++ html b := List.flatMap_append

theorem js_append (a b : Text) : js (a ++ b) = js a ++ js b := List.flatMap_append

end Escape

/-- What is said when no kind was chosen. -/
def noKindChosen : Text := "no escape type chosen".toList

/-- The escaper used unless the caller supplies one. -/
def standardEscaper : Escaper
  | .unspecified, _ => .error ⟨.unspecified, noKindChosen⟩
  | .text, t => .ok t
  | .html, t => .ok (Escape.html t)
  | .js, t => .ok (Escape.js t)

end Stencil
