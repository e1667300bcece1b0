/-!
# Tables

A finite map as a list of entries. `set` replaces an entry where it stands and puts a new one at
the end, so a table built by `set` has every key once; `get?` finds the first entry of a key.
-/

namespace Stencil

universe u v

/-- Entries of a finite map. -/
abbrev Table (κ : Type u) (ν : Type v) := List (κ × ν)

namespace Table

variable {κ : Type u} {ν : Type v} [DecidableEq κ]

/-- The value of a key. -/
def get? : Table κ ν → κ → Option ν
  | [], _ => none
  | (k, v) :: t, key => if k = key then some v else get? t key

/-- Sets the value of a key. -/
def set : Table κ ν → κ → ν → Table κ ν
  | [], key, value => [(key, value)]
  | (k, v) :: t, key, value => if k = key then (k, value) :: t else (k, v) :: set t key value

/-- Removes every entry of a key. -/
def erase (t : Table κ ν) (key : κ) : Table κ ν := t.filter fun e => e.1 ≠ key

/-- The key has an entry. -/
def has (t : Table κ ν) (key : κ) : Bool := (get? t key).isSome

def keys (t : Table κ ν) : List κ := t.map (·.1)

@[simp] theorem get?_nil (key : κ) : get? ([] : Table κ ν) key = none := rfl

theorem get?_set (t : Table κ ν) (key other : κ) (value : ν) :
    get? (set t key value) other = if other = key then some value else get? t other := by
  induction t with
  | nil =>
    by_cases h : other = key
    · simp [set, get?, h]
    · simp [set, get?, h, Ne.symm h]
  | cons e t ih =>
    obtain ⟨k, v⟩ := e
    by_cases hk : k = key
    · subst hk
      by_cases h : other = k
      · simp [set, get?, h]
      · simp [set, get?, h, Ne.symm h]
    · by_cases h : k = other
      · subst h; simp [set, get?, hk]
      · simp [set, get?, hk, h, ih]

/-- Two entries can be set in either order unless they differ and are of one key. -/
theorem get?_set_comm (t : Table κ ν) {key key' : κ} {value value' : ν}
    (h : key = key' → value = value') (other : κ) :
    get? (set (set t key value) key' value') other =
      get? (set (set t key' value') key value) other := by
  rw [get?_set, get?_set, get?_set, get?_set]
  by_cases hk : other = key
  · by_cases hk' : other = key'
    · rw [if_pos hk', if_pos hk, h (hk.symm.trans hk')]
    · rw [if_neg hk', if_pos hk, if_pos hk]
  · rw [if_neg hk, if_neg hk]

/-- The last value that is set for a key stands. -/
theorem set_set (t : Table κ ν) (key : κ) (value value' : ν) :
    set (set t key value) key value' = set t key value' := by
  induction t with
  | nil => simp [set]
  | cons e t ih =>
    obtain ⟨k, v⟩ := e
    by_cases hk : k = key
    · simp [set, hk]
    · simp [set, hk, ih]

/-- A value that is set again changes nothing. -/
theorem set_eq_self {t : Table κ ν} {key : κ} {value : ν} (h : get? t key = some value) :
    set t key value = t := by
  induction t with
  | nil => cases h
  | cons e t ih =>
    obtain ⟨k, v⟩ := e
    by_cases hk : k = key
    · rw [get?, if_pos hk, Option.some.injEq] at h
      rw [set, if_pos hk, h]
    · rw [get?, if_neg hk] at h
      rw [set, if_neg hk, ih h]

/-- Values that are changed are found changed. -/
theorem get?_map {ν' : Type v} (f : ν → ν') (t : Table κ ν) (key : κ) :
    get? (t.map fun e => (e.1, f e.2)) key = (get? t key).map f := by
  induction t with
  | nil => rfl
  | cons e t ih =>
    obtain ⟨k, v⟩ := e
    by_cases hk : k = key
    · simp [get?, hk]
    · simp [get?, hk, ih]

/-- A value can be changed before it is set or with all others after it. -/
theorem set_map {ν' : Type v} (f : ν → ν') (t : Table κ ν) (key : κ) (value : ν) :
    set (t.map fun e => (e.1, f e.2)) key (f value) =
      (set t key value).map fun e => (e.1, f e.2) := by
  induction t with
  | nil => rfl
  | cons e t ih =>
    obtain ⟨k, v⟩ := e
    by_cases hk : k = key
    · simp [set, hk]
    · simp [set, hk, ih]

theorem get?_erase (t : Table κ ν) (key other : κ) :
    get? (erase t key) other = if other = key then none else get? t other := by
  induction t with
  | nil => simp [erase]
  | cons e t ih =>
    obtain ⟨k, v⟩ := e
    simp only [erase] at ih
    by_cases hk : k = key
    · subst hk
      simp only [erase, List.filter_cons, ne_eq, not_true, decide_false, Bool.false_eq_true,
        if_false, ih, get?]
      by_cases h : other = k
      · simp [h]
      · simp [h, Ne.symm h]
    · simp only [erase, List.filter_cons, ne_eq, hk, not_false_eq_true, decide_true, if_true, get?,
        ih]
      by_cases h : k = other
      · subst h; simp [hk]
      · simp [h]

theorem has_set (t : Table κ ν) (key other : κ) (value : ν) :
    has (set t key value) other = (decide (other = key) || has t other) := by
  by_cases h : other = key <;> simp [has, get?_set, h]

theorem has_erase (t : Table κ ν) (key other : κ) :
    has (erase t key) other = (!decide (other = key) && has t other) := by
  by_cases h : other = key <;> simp [has, get?_erase, h]

/-- A table in which nothing is found is empty. -/
theorem eq_nil_of_get? {t : Table κ ν} (h : ∀ key, get? t key = none) : t = [] := by
  cases t with
  | nil => rfl
  | cons e t =>
    have he := h e.1
    rw [get?, if_pos rfl] at he
    cases he

theorem mem_of_get? {t : Table κ ν} {key : κ} {value : ν} (h : get? t key = some value) :
    (key, value) ∈ t := by
  induction t with
  | nil => simp at h
  | cons e t ih =>
    obtain ⟨k, v⟩ := e
    by_cases hk : k = key
    · subst hk; simp only [get?, if_true, Option.some.injEq] at h; subst h; simp
    · simp only [get?, hk, if_false] at h
      exact List.mem_cons_of_mem _ (ih h)

/-! ## Keys -/

theorem mem_keys_iff {t : Table κ ν} {key : κ} : key ∈ t.keys ↔ t.has key = true := by
  unfold keys has
  induction t with
  | nil => simp
  | cons e t ih =>
    obtain ⟨k, v⟩ := e
    by_cases hk : k = key
    · simp [get?, hk]
    · rw [List.map_cons, List.mem_cons, ih, get?, if_neg hk]
      exact or_iff_right (Ne.symm hk)

theorem get?_eq_none_iff {t : Table κ ν} {key : κ} : t.get? key = none ↔ key ∉ t.keys := by
  rw [mem_keys_iff, has, Bool.not_eq_true, Option.isSome_eq_false_iff, Option.isNone_iff_eq_none]

/-- What is found in a table is found in a longer one. -/
theorem get?_append {t : Table κ ν} {key : κ} {value : ν} (h : get? t key = some value)
    (more : Table κ ν) : get? (t ++ more) key = some value := by
  induction t with
  | nil => cases h
  | cons e t ih =>
    obtain ⟨k, v⟩ := e
    by_cases hk : k = key
    · rw [get?, if_pos hk] at h
      rw [List.cons_append, get?, if_pos hk, h]
    · rw [get?, if_neg hk] at h
      rw [List.cons_append, get?, if_neg hk, ih h]

theorem keys_erase (t : Table κ ν) (key : κ) : (erase t key).keys = t.keys.filter (· ≠ key) := by
  unfold keys erase
  rw [List.filter_map]
  rfl

theorem nodup_keys_erase {t : Table κ ν} (h : t.keys.Nodup) (key : κ) : (erase t key).keys.Nodup := by
  rw [keys_erase]
  exact h.filter _

theorem keys_set (t : Table κ ν) (key : κ) (value : ν) :
    (set t key value).keys = if t.has key then t.keys else t.keys ++ [key] := by
  unfold keys has
  induction t with
  | nil => rfl
  | cons e t ih =>
    obtain ⟨k, v⟩ := e
    by_cases hk : k = key
    · simp [set, get?, hk]
    · simp only [set, get?, hk, if_false, List.map_cons, ih]
      split <;> simp

theorem nodup_keys_set {t : Table κ ν} (h : t.keys.Nodup) (key : κ) (value : ν) :
    (set t key value).keys.Nodup := by
  rw [keys_set]
  split
  · exact h
  · rename_i hk
    refine List.nodup_append.2 ⟨h, by simp, fun k hmem k' hk' he => ?_⟩
    rw [List.mem_singleton] at hk'
    exact hk (mem_keys_iff.1 (hk' ▸ he ▸ hmem))

/-- A new key makes a table longer by one. -/
theorem length_set {t : Table κ ν} {key : κ} (h : t.get? key = none) (value : ν) :
    (set t key value).length = t.length + 1 := by
  have hlen := congrArg List.length (keys_set t key value)
  rw [has, h] at hlen
  simpa [keys] using hlen

/-- A key that is erased makes a table shorter by one. -/
theorem length_erase {t : Table κ ν} (h : t.keys.Nodup) (key : κ) :
    (erase t key).length + (if t.has key then 1 else 0) = t.length := by
  induction t with
  | nil => rfl
  | cons e t ih =>
    obtain ⟨k, v⟩ := e
    obtain ⟨hk, ht⟩ := List.nodup_cons.1 h
    have hrest := ih ht
    by_cases hkey : k = key
    · subst hkey
      have hfree : has t k = false := by
        rw [Bool.eq_false_iff, ne_eq, ← mem_keys_iff]
        exact hk
      rw [hfree] at hrest
      simpa [erase, has, get?] using hrest
    · have herase : erase ((k, v) :: t) key = (k, v) :: erase t key := by simp [erase, hkey]
      have hhas : has ((k, v) :: t) key = has t key := by rw [has, get?, if_neg hkey, has]
      rw [herase, hhas, List.length_cons, List.length_cons, Nat.add_right_comm, hrest]

/-- A key that moves to the front is found as before, and so are all others. -/
theorem get?_front {t : Table κ ν} {key : κ} {value : ν} (h : get? t key = some value) (other : κ) :
    get? ((key, value) :: t.erase key) other = get? t other := by
  rw [get?, get?_erase]
  by_cases hk : key = other
  · subst hk
    rw [if_pos rfl, h]
  · rw [if_neg hk, if_neg (Ne.symm hk)]

/-- A key that moves to the front still stands once. -/
theorem nodup_keys_front {t : Table κ ν} (h : t.keys.Nodup) (key : κ) (value : ν) :
    keys ((key, value) :: t.erase key) |>.Nodup := by
  refine List.nodup_cons.2 ⟨?_, nodup_keys_erase h key⟩
  show key ∉ (t.erase key).keys
  rw [← get?_eq_none_iff, get?_erase, if_pos rfl]

/-- A key that moves to the front leaves the length as it is. -/
theorem length_front {t : Table κ ν} (h : t.keys.Nodup) {key : κ} (hk : t.has key = true) (value : ν) :
    ((key, value) :: t.erase key).length = t.length := by
  have hlen := length_erase h key
  rwa [hk, if_pos rfl] at hlen

end Table

end Stencil
