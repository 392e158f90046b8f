import Jfsrec.Lib.Select

/-!
# Lists that end in copies of their last element

A reader that hands over the last record of a file once too often makes of a list `l` one that
ends in copies of its last element, `LastRepeated l m`.  A filter keeps the two lists apart in
no other way, and a selection that drops the copies does not see them at all.
-/

namespace Lib

variable {α : Type} {l m : List α} {x : α}

/-- `m` is `l` with its last element repeated any number of times. -/
inductive LastRepeated (l : List α) : List α → Prop
  | refl : LastRepeated l l
  | again {m : List α} {x : α} (h : LastRepeated l m) (hx : m.getLast? = some x) :
      LastRepeated l (m ++ [x])

namespace LastRepeated

theorem mem_iff (h : LastRepeated l m) {a : α} : a ∈ m ↔ a ∈ l := by
  induction h with
  | refl => exact Iff.rfl
  | again h hx ih =>
    rw [List.mem_append, List.mem_singleton, ← ih]
    constructor
    · rintro (ha | rfl)
      · exact ha
      · exact List.mem_of_getLast? hx
    · exact Or.inl

theorem ne_nil (h : LastRepeated l m) (hl : l ≠ []) : m ≠ [] := by
  obtain ⟨a, ha⟩ := List.exists_mem_of_ne_nil l hl
  exact List.ne_nil_of_mem (h.mem_iff.mpr ha)

theorem filter (h : LastRepeated l m) (p : α → Bool) :
    LastRepeated (l.filter p) (m.filter p) := by
  induction h with
  | refl => exact .refl
  | @again m x h hx ih =>
    obtain ⟨front, rfl⟩ := List.getLast?_eq_some_iff.mp hx
    rw [List.filter_append]
    by_cases hp : p x = true
    · have hlast : ((front ++ [x]).filter p).getLast? = some x := by
        rw [List.filter_append, List.filter_cons_of_pos hp, List.filter_nil, List.getLast?_concat]
      rw [List.filter_cons_of_pos hp]
      exact ih.again hlast
    · rw [List.filter_cons_of_neg hp, List.filter_nil, List.append_nil]
      exact ih

/-- **A selection that drops a second last element** selects the same of both lists. -/
theorem keepAt_eq (h : LastRepeated l m) (sel : List α → ℕ → Bool)
    (hsel : ∀ (m : List α) (x : α), m.getLast? = some x →
      keepAt (sel (m ++ [x])) (m ++ [x]) = keepAt (sel m) m) :
    keepAt (sel m) m = keepAt (sel l) l := by
  induction h with
  | refl => rfl
  | again h hx ih => rw [hsel _ _ hx, ih]

end LastRepeated

end Lib
