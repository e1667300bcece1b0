import Stencil.Escape

/-!
# Texts escaped for HTML

**Reading** (`Escape.readHtml`). A reader goes from left to right and takes an entity for the
character that it stands for.

**Harmless texts** (`Escape.Harmless`). A text that stands for another holds none of the characters
that open or end a tag or an attribute value, every ampersand in it begins an entity, and it reads
as what it stands for. `Escape.harmless_html` says this of every escaped text, so also of one that
looks like an entity before it is escaped.
-/

namespace Stencil

namespace Escape

/-- The characters that are written as entities. -/
def special : List Char := ['&', '<', '>', '"', '\'']

/-- The characters that open or end a tag or an attribute value. -/
def delimiters : List Char := ['<', '>', '"', '\'']

/-- Reads a text, and each entity as its character. -/
def readHtml : Text → Text
  | '&' :: 'a' :: 'm' :: 'p' :: ';' :: rest => '&' :: readHtml rest
  | '&' :: 'l' :: 't' :: ';' :: rest => '<' :: readHtml rest
  | '&' :: 'g' :: 't' :: ';' :: rest => '>' :: readHtml rest
  | '&' :: 'q' :: 'u' :: 'o' :: 't' :: ';' :: rest => '"' :: readHtml rest
  | '&' :: '#' :: 'x' :: '2' :: '7' :: ';' :: rest => '\'' :: readHtml rest
  | c :: rest => c :: readHtml rest
  | [] => []

/-- The text stands for another one, and nothing in it can be taken for markup. -/
structure Harmless (escaped raw : Text) : Prop where
  noDelimiter : ∀ c ∈ delimiters, c ∉ escaped
  entities : ∀ before after, escaped = before ++ '&' :: after →
    ∃ c ∈ special, htmlChar c <+: '&' :: after
  reads : readHtml escaped = raw

/-! ## One character -/

variable {c d : Char} {t : Text}

theorem htmlChar_of_notMem (h : c ∉ special) : htmlChar c = [c] := by
  unfold htmlChar
  split <;> simp_all [special]

theorem readHtml_cons (h : c ≠ '&') (rest : Text) : readHtml (c :: rest) = c :: readHtml rest := by
  rw [readHtml] <;> simp [h]

/-- What a character is written as is read as that character, whatever follows. -/
theorem readHtml_htmlChar_append (c : Char) (rest : Text) :
    readHtml (htmlChar c ++ rest) = c :: readHtml rest := by
  by_cases h : c ∈ special
  · simp only [special, List.mem_cons, List.not_mem_nil, or_false] at h
    rcases h with rfl | rfl | rfl | rfl | rfl <;> rfl
  · rw [htmlChar_of_notMem h, List.singleton_append]
    refine readHtml_cons ?_ rest
    rintro rfl
    exact h List.mem_cons_self

theorem notMem_htmlChar (h : d ∈ delimiters) (c : Char) : d ∉ htmlChar c := by
  by_cases hc : c ∈ special
  · simp only [special, delimiters, List.mem_cons, List.not_mem_nil, or_false] at h hc
    rcases hc with rfl | rfl | rfl | rfl | rfl <;> rcases h with rfl | rfl | rfl | rfl <;> decide
  · rw [htmlChar_of_notMem hc, List.mem_singleton]
    rintro rfl
    exact hc (List.mem_cons_of_mem _ h)

/-- An ampersand is where the entity of a character begins. -/
theorem ampersand_of_htmlChar {before after : Text} (h : htmlChar c = before ++ '&' :: after) :
    c ∈ special ∧ before = [] := by
  by_cases hc : c ∈ special
  · refine ⟨hc, ?_⟩
    cases before with
    | nil => rfl
    | cons b before =>
      have htail : '&' ∈ (htmlChar c).tail := by
        rw [h]
        exact List.mem_append_right _ List.mem_cons_self
      simp only [special, List.mem_cons, List.not_mem_nil, or_false] at hc
      rcases hc with rfl | rfl | rfl | rfl | rfl <;> exact absurd htail (by decide)
  · have hmem : '&' ∈ htmlChar c := h ▸ List.mem_append_right _ List.mem_cons_self
    rw [htmlChar_of_notMem hc, List.mem_singleton] at hmem
    exact absurd (hmem ▸ List.mem_cons_self) hc

/-! ## Texts -/

theorem html_cons (c : Char) (t : Text) : html (c :: t) = htmlChar c ++ html t := List.flatMap_cons

theorem readHtml_html (t : Text) : readHtml (html t) = t := by
  induction t with
  | nil => rfl
  | cons c t ih => rw [html_cons, readHtml_htmlChar_append, ih]

theorem notMem_html (h : d ∈ delimiters) (t : Text) : d ∉ html t := by
  intro hd
  obtain ⟨c, -, hc⟩ := List.mem_flatMap.1 hd
  exact notMem_htmlChar h c hc

/-- Every ampersand of an escaped text begins an entity. -/
theorem entity_of_html {before after : Text} (h : html t = before ++ '&' :: after) :
    ∃ c ∈ special, htmlChar c <+: '&' :: after := by
  induction t generalizing before with
  | nil => simp [html] at h
  | cons c t ih =>
    rw [html_cons, List.append_eq_append_iff] at h
    rcases h with ⟨rest, -, hrest⟩ | ⟨rest, hchar, hrest⟩
    · exact ih hrest
    · -- The rest of the character's text is empty or begins with the ampersand.
      cases rest with
      | nil =>
        have htail : html t = [] ++ '&' :: after := hrest.symm
        exact ih htail
      | cons a rest =>
        obtain ⟨rfl, -⟩ := List.cons_eq_cons.1 hrest
        obtain ⟨hc, rfl⟩ := ampersand_of_htmlChar hchar
        exact ⟨c, hc, html t, by rw [hrest, hchar, List.nil_append]⟩

/-- **What is escaped for HTML is harmless.** -/
theorem harmless_html (t : Text) : Harmless (html t) t where
  noDelimiter := fun _ h => notMem_html h t
  entities := fun _ _ => entity_of_html
  reads := readHtml_html t

/-- A text that looks like an entity is read as itself. -/
example : html "&lt;".toList = "&amp;lt;".toList ∧ readHtml "&amp;lt;".toList = "&lt;".toList := by
  decide

end Escape

end Stencil
