import Mathlib.Data.List.Basic
import Mathlib.Data.List.Perm.Basic

/-!
# Selecting from a list by position

`keepAt keep l` is what is left of `l` when the elements at the positions `keep`
accepts stay.  A decision about positions can be made on any image of the list,
`keepAt_map`; on the list itself it is a filter, `filter_eq_keepAt`.
-/

namespace Lib

variable {α β : Type}

def keepAt (keep : ℕ → Bool) : List α → List α
  | [] => []
  | a :: l => if keep 0 then a :: keepAt (fun i => keep (i + 1)) l
      else keepAt (fun i => keep (i + 1)) l

theorem keepAt_map (f : α → β) (keep : ℕ → Bool) (l : List α) :
    keepAt keep (l.map f) = (keepAt keep l).map f := by
  induction l generalizing keep with
  | nil => rfl
  | cons a l ih =>
    rw [List.map_cons, keepAt, keepAt, ih]
    split <;> rfl

theorem keepAt_true (l : List α) : keepAt (fun _ => true) l = l := by
  induction l with
  | nil => rfl
  | cons a l ih => rw [keepAt, if_pos rfl, ih]

theorem keepAt_false (l : List α) : keepAt (fun _ => false) l = [] := by
  induction l with
  | nil => rfl
  | cons a l ih => rw [keepAt, if_neg Bool.false_ne_true, ih]

theorem mem_keepAt {keep : ℕ → Bool} {l : List α} {a : α} :
    a ∈ keepAt keep l ↔ ∃ i, keep i = true ∧ l[i]? = some a := by
  induction l generalizing keep with
  | nil => simp [keepAt]
  | cons b l ih =>
    have hsplit : (∃ i, keep i = true ∧ (b :: l)[i]? = some a)
        ↔ keep 0 = true ∧ b = a ∨ ∃ i, keep (i + 1) = true ∧ l[i]? = some a := by
      constructor
      · rintro ⟨i, hi, ha⟩
        cases i with
        | zero => exact Or.inl ⟨hi, by simpa using ha⟩
        | succ i => exact Or.inr ⟨i, hi, by simpa using ha⟩
      · rintro (⟨h0, rfl⟩ | ⟨i, hi, ha⟩)
        · exact ⟨0, h0, by simp⟩
        · exact ⟨i + 1, hi, by simpa using ha⟩
    rw [keepAt, hsplit]
    by_cases h0 : keep 0 = true
    · rw [if_pos h0, List.mem_cons, ih, eq_comm (a := a)]
      simp [h0]
    · rw [if_neg h0, ih]
      simp [h0]

theorem mem_keepAt_iff {keep : ℕ → Bool} {l : List α} {P : α → Prop}
    (h : ∀ i (hi : i < l.length), keep i = true ↔ P l[i]) {a : α} :
    a ∈ keepAt keep l ↔ a ∈ l ∧ P a := by
  rw [mem_keepAt]
  constructor
  · rintro ⟨i, hkeep, hget⟩
    obtain ⟨hi, rfl⟩ := List.getElem?_eq_some_iff.mp hget
    exact ⟨List.getElem_mem hi, (h i hi).mp hkeep⟩
  · rintro ⟨ha, hP⟩
    obtain ⟨i, hi, rfl⟩ := List.mem_iff_getElem.mp ha
    exact ⟨i, (h i hi).mpr hP, List.getElem?_eq_getElem hi⟩

theorem keepAt_sublist (keep : ℕ → Bool) (l : List α) : (keepAt keep l).Sublist l := by
  induction l generalizing keep with
  | nil => exact .slnil
  | cons a l ih =>
    rw [keepAt]
    split
    · exact (ih _).cons_cons a
    · exact (ih _).cons a

theorem keepAt_congr {keep keep' : ℕ → Bool} {l : List α} (h : ∀ i < l.length, keep i = keep' i) :
    keepAt keep l = keepAt keep' l := by
  induction l generalizing keep keep' with
  | nil => rfl
  | cons a l ih =>
    have hrest : keepAt (fun i => keep (i + 1)) l = keepAt (fun i => keep' (i + 1)) l :=
      ih (fun i hi => h (i + 1) (by simpa using hi))
    rw [keepAt, keepAt, h 0 (by simp), hrest]

theorem keepAt_concat (keep : ℕ → Bool) (l : List α) (x : α) :
    keepAt keep (l ++ [x]) = keepAt keep l ++ if keep l.length then [x] else [] := by
  induction l generalizing keep with
  | nil => rfl
  | cons a l ih =>
    rw [List.cons_append, keepAt, keepAt, ih]
    split <;> rfl

/-- What stays and what goes make up the list. -/
theorem keepAt_perm (keep : ℕ → Bool) (l : List α) :
    (keepAt keep l ++ keepAt (fun i => !keep i) l).Perm l := by
  induction l generalizing keep with
  | nil => exact .refl _
  | cons a l ih =>
    rw [keepAt, keepAt]
    by_cases h0 : keep 0 = true
    · rw [if_pos h0, if_neg (by simp [h0]), List.cons_append]
      exact (ih _).cons a
    · rw [if_neg h0, if_pos (by simp [h0])]
      exact List.perm_middle.trans ((ih _).cons a)

/-- Any two elements that stay are at two positions that stay, in their order. -/
theorem pairwise_keepAt {R : α → α → Prop} {keep : ℕ → Bool} {l : List α}
    (h : ∀ i j a b, i < j → keep i = true → keep j = true → l[i]? = some a → l[j]? = some b →
      R a b) : (keepAt keep l).Pairwise R := by
  induction l generalizing keep with
  | nil => exact .nil
  | cons a l ih =>
    have hrest : (keepAt (fun i => keep (i + 1)) l).Pairwise R :=
      ih (fun i j b c hij hi hj hb hc => h (i + 1) (j + 1) b c (Nat.succ_lt_succ hij) hi hj
        (by simpa using hb) (by simpa using hc))
    rw [keepAt]
    split
    · rename_i h0
      refine .cons (fun b hb => ?_) hrest
      obtain ⟨i, hi, hget⟩ := mem_keepAt.mp hb
      exact h 0 (i + 1) a b (Nat.succ_pos i) h0 hi (by simp) (by simpa using hget)
    · exact hrest

theorem filter_eq_keepAt {p : α → Bool} {keep : ℕ → Bool} {l : List α}
    (h : ∀ i (hi : i < l.length), p l[i] = keep i) : l.filter p = keepAt keep l := by
  induction l generalizing keep with
  | nil => rfl
  | cons a l ih =>
    have h0 : p a = keep 0 := h 0 (by simp)
    have hs : l.filter p = keepAt (fun i => keep (i + 1)) l :=
      ih (fun i hi => h (i + 1) (by simpa using hi))
    rw [List.filter_cons, keepAt, h0, hs]

end Lib
