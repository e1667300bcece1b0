import Stencil.Text.Class

/-!
# Markers

The seven words that set markup apart from text: an opener and a closer for variables and for
tags, the word that brackets ditch blocks, and the two ends of a comment in which a tag or a
variable may hide.

**Validity** (`Markers.check`). No marker is empty or broken over lines. The five that open
something differ from each other, and neither opener for variables and tags occurs in the ditch
word.
-/

namespace Stencil

/-- The words that mark up a template. -/
structure Markers where
  varStart : Text
  varEnd : Text
  tagStart : Text
  tagEnd : Text
  ditch : Text
  commentStart : Text
  commentEnd : Text
  deriving DecidableEq, Repr

/-- The markers used unless the caller sets others. -/
def Markers.standard : Markers where
  varStart := ['~', '%']
  varEnd := ['%']
  tagStart := ['~', '%', '%']
  tagEnd := ['%']
  ditch := ['<', '!', '-', '-', '%', '%', '-', '-', '>']
  commentStart := ['<', '!', '-', '-']
  commentEnd := ['-', '-', '>']

/-- The role of a marker. -/
inductive MarkerRole where
  | varStart
  | varEnd
  | tagStart
  | tagEnd
  | ditch
  | commentStart
  | commentEnd
  deriving DecidableEq, Repr

namespace MarkerRole

def name : MarkerRole → String
  | .varStart => "var_start"
  | .varEnd => "var_end"
  | .tagStart => "tag_start"
  | .tagEnd => "tag_end"
  | .ditch => "ditch"
  | .commentStart => "comment_start"
  | .commentEnd => "comment_end"

/-- All roles, in the order in which markers are checked. -/
def all : List MarkerRole :=
  [.varStart, .varEnd, .tagStart, .tagEnd, .ditch, .commentStart, .commentEnd]

/-- The roles whose markers must differ from each other. -/
def openers : List MarkerRole := [.varStart, .tagStart, .ditch, .commentStart, .commentEnd]

end MarkerRole

/-- What is wrong with a choice of markers. -/
inductive MarkerError where
  | empty (role : MarkerRole)
  | lineBreak (role : MarkerRole)
  | clash (first second : MarkerRole)
  deriving DecidableEq, Repr

def MarkerError.message : MarkerError → String
  | .empty role => "token '" ++ role.name ++ "' is invalid: token is empty"
  | .lineBreak role => "token '" ++ role.name ++ "' is invalid: token contains a line break"
  | .clash first second => "tokens '" ++ first.name ++ "' and '" ++ second.name ++ "' clash"

namespace Markers

/-- The marker in a role. -/
def get (m : Markers) : MarkerRole → Text
  | .varStart => m.varStart
  | .varEnd => m.varEnd
  | .tagStart => m.tagStart
  | .tagEnd => m.tagEnd
  | .ditch => m.ditch
  | .commentStart => m.commentStart
  | .commentEnd => m.commentEnd

/-- The markers with another word in one role. -/
def set (m : Markers) (role : MarkerRole) (t : Text) : Markers :=
  match role with
  | .varStart => { m with varStart := t }
  | .varEnd => { m with varEnd := t }
  | .tagStart => { m with tagStart := t }
  | .tagEnd => { m with tagEnd := t }
  | .ditch => { m with ditch := t }
  | .commentStart => { m with commentStart := t }
  | .commentEnd => { m with commentEnd := t }

/-- What is wrong with one marker on its own. -/
def wordError? (m : Markers) (role : MarkerRole) : Option MarkerError :=
  if (m.get role).isEmpty then some (.empty role)
  else if (m.get role).any Text.isBreak then some (.lineBreak role)
  else none

/-- The first pair of equal openers. -/
def clash? (m : Markers) : List MarkerRole → Option MarkerError
  | [] => none
  | a :: rest =>
    match rest.find? fun b => m.get a = m.get b with
    | some b => some (.clash a b)
    | none => clash? m rest

/-- The first opener that occurs in the ditch word. -/
def ditchClash? (m : Markers) : Option MarkerError :=
  ([.varStart, .tagStart].find? fun role => Text.hasWord (m.get role) m.ditch).map (.clash .ditch)

/-- The first thing that is wrong with the markers, if anything is. -/
def error? (m : Markers) : Option MarkerError :=
  ((MarkerRole.all.findSome? m.wordError?).or (m.clash? MarkerRole.openers)).or m.ditchClash?

/-- The markers can be used. -/
def Valid (m : Markers) : Prop := m.error? = none

instance (m : Markers) : Decidable m.Valid := inferInstanceAs (Decidable (m.error? = none))

theorem wordError?_eq_none_iff {m : Markers} {role : MarkerRole} :
    m.wordError? role = none ↔
      m.get role ≠ [] ∧ ∀ c ∈ m.get role, Text.isBreak c = false := by
  by_cases h : m.get role = [] <;> simp [wordError?, h]

/-- Every marker of a valid choice has at least one character. -/
theorem Valid.get_ne_nil {m : Markers} (h : m.Valid) (role : MarkerRole) : m.get role ≠ [] := by
  have h1 : MarkerRole.all.findSome? m.wordError? = none := by
    simp only [Valid, error?, Option.or_eq_none_iff] at h
    exact h.1.1
  have h2 := List.findSome?_eq_none_iff.1 h1 role (by cases role <;> decide)
  exact (wordError?_eq_none_iff.1 h2).1

/-- No marker of a valid choice runs over the end of a line. -/
theorem Valid.noBreak {m : Markers} (h : m.Valid) (role : MarkerRole) :
    ∀ c ∈ m.get role, Text.isBreak c = false := by
  have h1 : MarkerRole.all.findSome? m.wordError? = none := by
    simp only [Valid, error?, Option.or_eq_none_iff] at h
    exact h.1.1
  have h2 := List.findSome?_eq_none_iff.1 h1 role (by cases role <;> decide)
  exact (wordError?_eq_none_iff.1 h2).2

theorem valid_standard : standard.Valid := by decide

end Markers

end Stencil
