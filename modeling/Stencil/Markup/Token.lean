import Stencil.Markers

/-!
# Tokens

**Tokens.** A tag is an opener, a keyword of letters and underscores, a colon, an argument and a
closer; a variable is an opener, a body and a closer. Argument and body are as short as possible
and stay on their line. A tag opener that starts no tag is a token too, a stray one.

**Precedence.** Where several tokens could start, a tag comes first. A stray opener yields to a
variable only if variable openers begin like tag openers, so that every variable would be stray.

**Scanning** (`scan`). From left to right, at each place the token that starts there, else one
character of text. The result alternates: text, then each token with the text that follows it.
-/

namespace Stencil

inductive TokenKind where
  | opens (name : Text)
  | closes (name : Text)
  | includes (arg : Text)
  | var (body : Text)
  | unknown (keyword : Text)
  | stray
  deriving DecidableEq, Repr

/-- The kind of a tag. -/
def TokenKind.ofTag (keyword arg : Text) : TokenKind :=
  if keyword = ['b', 'e', 'g', 'i', 'n'] then .opens arg
  else if keyword = ['e', 'n', 'd'] then .closes arg
  else if keyword = ['i', 'n', 'c', 'l', 'u', 'd', 'e'] then .includes arg
  else .unknown keyword

/-- A token, where it starts, and the ends of the comment it hides in, if it hides. -/
structure Token where
  kind : TokenKind
  pos : Nat
  body : Text
  lead : Text
  trail : Text
  deriving DecidableEq, Repr

namespace Token

/-- The token with its comment. -/
def raw (t : Token) : Text := t.lead ++ t.body ++ t.trail

/-- Where the token starts, its comment included. -/
def start (t : Token) : Nat := t.pos - t.lead.length

/-- Where the token ends, its comment included. -/
def stop (t : Token) : Nat := t.pos + t.body.length + t.trail.length

end Token

/-! ## One token -/

/-- What stands before the first `closer`, if that is on the same line. -/
def closedBy? (closer : Text) : Text → Option Text
  | [] => if closer.isEmpty then some [] else none
  | c :: cs =>
    if Text.beginsWith closer (c :: cs) then some []
    else if Text.isBreak c then none
    else (closedBy? closer cs).map (c :: ·)

/-- A character of a keyword. -/
def isKeyword (c : Char) : Bool := c.isAlpha || c == '_'

namespace Markers

/-- The tag at the start of a text: its kind and its text. -/
def tag? (m : Markers) (t : Text) : Option (TokenKind × Text) :=
  (Text.after? m.tagStart t).bind fun r =>
    let keyword := r.takeWhile isKeyword
    match r.dropWhile isKeyword with
    | ':' :: s =>
      if keyword.isEmpty then none
      else (closedBy? m.tagEnd s).map fun arg =>
        (.ofTag keyword arg, m.tagStart ++ keyword ++ ':' :: arg ++ m.tagEnd)
    | _ => none

/-- The variable at the start of a text. -/
def var? (m : Markers) (t : Text) : Option (TokenKind × Text) :=
  (Text.after? m.varStart t).bind fun r =>
    (closedBy? m.varEnd r).map fun body => (.var body, m.varStart ++ body ++ m.varEnd)

/-- The tag opener at the start of a text. -/
def stray? (m : Markers) (t : Text) : Option (TokenKind × Text) :=
  if Text.beginsWith m.tagStart t then some (.stray, m.tagStart) else none

/-- The token at the start of a text. -/
def token? (m : Markers) (t : Text) : Option (TokenKind × Text) :=
  if Text.beginsWith m.tagStart m.varStart then ((m.tag? t).or (m.var? t)).or (m.stray? t)
  else ((m.tag? t).or (m.stray? t)).or (m.var? t)

end Markers

/-! ## Scanning -/

/-- A text cut at its tokens: what stands before the first one, and each token with the text that
follows it. -/
structure Scan where
  head : Text
  tail : List (Token × Text)
  deriving DecidableEq, Repr

/-- Scans a text that starts at `pos`, of which the first `skip` characters belong to a token
already found. -/
def scanFrom (m : Markers) : Nat → Nat → Text → Scan
  | _, _, [] => ⟨[], []⟩
  | pos, skip + 1, _ :: cs => scanFrom m (pos + 1) skip cs
  | pos, 0, c :: cs =>
    match m.token? (c :: cs) with
    | some (kind, body) =>
      let s := scanFrom m (pos + 1) (body.length - 1) cs
      ⟨[], (⟨kind, pos, body, [], []⟩, s.head) :: s.tail⟩
    | none =>
      let s := scanFrom m (pos + 1) 0 cs
      ⟨c :: s.head, s.tail⟩

def scan (m : Markers) (t : Text) : Scan := scanFrom m 0 0 t

/-- The text that was scanned. -/
def Scan.text (s : Scan) : Text := s.head ++ s.tail.flatMap fun (t, after) => t.raw ++ after

theorem closedBy?_eq_some {closer t a : Text} (h : closedBy? closer t = some a) :
    ∃ r, t = a ++ closer ++ r := by
  induction t generalizing a with
  | nil =>
    simp only [closedBy?, List.isEmpty_iff] at h
    split at h
    · simp only [Option.some.injEq] at h; subst h; simp_all
    · cases h
  | cons c t ih =>
    rw [closedBy?] at h
    split at h
    · rename_i hb
      simp only [Option.some.injEq] at h; subst h
      obtain ⟨r, hr⟩ := Text.beginsWith_iff.1 hb
      exact ⟨r, by simpa using hr⟩
    · split at h
      · cases h
      · simp only [Option.map_eq_some_iff] at h
        obtain ⟨b, hb, rfl⟩ := h
        obtain ⟨r, rfl⟩ := ih hb
        exact ⟨r, by simp⟩

namespace Markers

variable {m : Markers} {t body : Text} {kind : TokenKind}

/-- What is read as a tag. -/
theorem tag?_eq_some_iff :
    m.tag? t = some (kind, body) ↔ ∃ keyword arg r : Text, keyword ≠ [] ∧
      (∀ c ∈ keyword, isKeyword c = true) ∧ t = m.tagStart ++ (keyword ++ ':' :: r) ∧
      closedBy? m.tagEnd r = some arg ∧ kind = .ofTag keyword arg ∧
      body = m.tagStart ++ (keyword ++ ':' :: (arg ++ m.tagEnd)) := by
  simp only [tag?, Option.bind_eq_some_iff, Text.after?_eq_some_iff]
  constructor
  · rintro ⟨r, rfl, h⟩
    split at h
    · rename_i s hs
      split at h
      · cases h
      rename_i hempty
      obtain ⟨arg, harg, he⟩ := Option.map_eq_some_iff.1 h
      cases he
      refine ⟨r.takeWhile isKeyword, arg, s, mt List.isEmpty_iff.2 hempty,
        fun c hc => List.all_eq_true.1 List.all_takeWhile c hc, ?_, harg, rfl, by simp⟩
      rw [← hs, List.takeWhile_append_dropWhile]
    · cases h
  · rintro ⟨keyword, arg, r, hne, hword, rfl, harg, rfl, rfl⟩
    refine ⟨_, rfl, ?_⟩
    simp only [List.dropWhile_append_of_pos hword, List.takeWhile_append_of_pos hword,
      List.dropWhile_cons_of_neg (show ¬ isKeyword ':' = true by decide),
      List.takeWhile_cons_of_neg (show ¬ isKeyword ':' = true by decide), List.append_nil,
      if_neg (mt List.isEmpty_iff.1 hne), harg, Option.map_some]
    simp

/-- What is read as a variable. -/
theorem var?_eq_some_iff :
    m.var? t = some (kind, body) ↔ ∃ name r : Text, t = m.varStart ++ r ∧
      closedBy? m.varEnd r = some name ∧ kind = .var name ∧
      body = m.varStart ++ (name ++ m.varEnd) := by
  simp only [var?, Option.bind_eq_some_iff, Text.after?_eq_some_iff, Option.map_eq_some_iff]
  constructor
  · rintro ⟨r, rfl, name, hname, he⟩
    cases he
    exact ⟨name, r, rfl, hname, rfl, List.append_assoc ..⟩
  · rintro ⟨name, r, rfl, hname, rfl, rfl⟩
    exact ⟨r, rfl, name, hname, by rw [List.append_assoc]⟩

/-- What is read as a stray opener. -/
theorem stray?_eq_some_iff :
    m.stray? t = some (kind, body) ↔
      Text.beginsWith m.tagStart t = true ∧ kind = .stray ∧ body = m.tagStart := by
  unfold stray?
  split
  · rename_i hbegins
    simp [hbegins, eq_comm]
  · rename_i hbegins
    simp [hbegins]

/-- A token is a tag, a variable or a stray opener. -/
theorem token?_cases (h : m.token? t = some (kind, body)) :
    m.tag? t = some (kind, body) ∨ m.var? t = some (kind, body) ∨
      m.stray? t = some (kind, body) := by
  unfold token? at h
  split at h <;> simp only [Option.or_eq_some_iff] at h
  · rcases h with (h | ⟨-, h⟩) | ⟨-, h⟩
    · exact .inl h
    · exact .inr (.inl h)
    · exact .inr (.inr h)
  · rcases h with (h | ⟨-, h⟩) | ⟨-, h⟩
    · exact .inl h
    · exact .inr (.inr h)
    · exact .inr (.inl h)

theorem tag?_eq_some (h : m.tag? t = some (kind, body)) : ∃ r, t = body ++ r := by
  obtain ⟨keyword, arg, s, -, -, rfl, harg, -, rfl⟩ := tag?_eq_some_iff.1 h
  obtain ⟨r, rfl⟩ := closedBy?_eq_some harg
  exact ⟨r, by simp⟩

theorem var?_eq_some (h : m.var? t = some (kind, body)) : ∃ r, t = body ++ r := by
  obtain ⟨name, s, rfl, hname, -, rfl⟩ := var?_eq_some_iff.1 h
  obtain ⟨r, rfl⟩ := closedBy?_eq_some hname
  exact ⟨r, by simp⟩

theorem stray?_eq_some (h : m.stray? t = some (kind, body)) : ∃ r, t = body ++ r := by
  obtain ⟨hbegins, -, rfl⟩ := stray?_eq_some_iff.1 h
  exact Text.beginsWith_iff.1 hbegins

/-- A token is the beginning of the text it was found in. -/
theorem token?_eq_some (h : m.token? t = some (kind, body)) : ∃ r, t = body ++ r := by
  rcases token?_cases h with h | h | h
  · exact tag?_eq_some h
  · exact var?_eq_some h
  · exact stray?_eq_some h

end Markers

end Stencil
