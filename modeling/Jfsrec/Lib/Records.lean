import Mathlib.Data.List.Basic
import Mathlib.Order.Basic

/-!
# Records of a list

One pass over values with keys that keeps the largest value, its key, and the
value that was the largest before it.  The last one is not the second largest
of the list: it is the largest of those that stand before the first occurrence
of the largest.  Where the keys are in order, those are the ones with smaller keys.
-/

namespace Lib

variable {κ : Type} {l before after : List (κ × ℕ)} {s : ℕ × ℕ × Option κ} {x : κ × ℕ} {m n : ℕ}

def record (s : ℕ × ℕ × Option κ) (x : κ × ℕ) : ℕ × ℕ × Option κ :=
  if x.2 > s.1 then (x.2, s.1, some x.1) else s

def largest (m : ℕ) (l : List (κ × ℕ)) : ℕ := l.foldl (fun m x => max m x.2) m

theorem largest_lt_iff : largest m l < n ↔ m < n ∧ ∀ x ∈ l, x.2 < n := by
  induction l generalizing m with
  | nil => simp [largest]
  | cons x l ih =>
    rw [List.forall_mem_cons]
    show largest (max m x.2) l < n ↔ _
    rw [ih, Nat.max_lt, and_assoc]

theorem foldl_record_fst : (l.foldl record s).1 = largest s.1 l := by
  induction l generalizing s with
  | nil => rfl
  | cons x l ih =>
    show ((l.foldl record (record s x)).1) = largest (max s.1 x.2) l
    have hfst : (record s x).1 = max s.1 x.2 := by
      rw [record]
      split <;> omega
    rw [ih, hfst]

theorem foldl_record_of_le (h : ∀ x ∈ l, x.2 ≤ s.1) : l.foldl record s = s := by
  induction l with
  | nil => rfl
  | cons x l ih =>
    obtain ⟨hx, hl⟩ := List.forall_mem_cons.mp h
    rw [List.foldl_cons, record, if_neg (by omega)]
    exact ih hl

theorem foldl_record_append_cons (hs : s.1 < x.2) (hb : ∀ y ∈ before, y.2 < x.2)
    (ha : ∀ y ∈ after, y.2 ≤ x.2) :
    (before ++ x :: after).foldl record s = (x.2, largest s.1 before, some x.1) := by
  have hlt : (before.foldl record s).1 < x.2 := by
    rw [foldl_record_fst, largest_lt_iff]
    exact ⟨hs, hb⟩
  rw [List.foldl_append, List.foldl_cons, record, if_pos hlt, foldl_record_fst]
  exact foldl_record_of_le ha

theorem exists_first_largest (hl : l ≠ []) : ∃ before x after, l = before ++ x :: after ∧
    (∀ y ∈ before, y.2 < x.2) ∧ ∀ y ∈ after, y.2 ≤ x.2 := by
  induction l with
  | nil => exact absurd rfl hl
  | cons z l ih =>
    by_cases hnil : l = []
    · exact ⟨[], z, [], by rw [hnil]; rfl, by simp, by simp⟩
    · obtain ⟨before, x, after, rfl, hb, ha⟩ := ih hnil
      by_cases hz : z.2 < x.2
      · exact ⟨z :: before, x, after, rfl, List.forall_mem_cons.mpr ⟨hz, hb⟩, ha⟩
      · refine ⟨[], z, before ++ x :: after, rfl, by simp, fun y hy => ?_⟩
        rcases List.mem_append.mp hy with hy | hy
        · exact Nat.le_of_lt (Nat.lt_of_lt_of_le (hb y hy) (Nat.not_lt.mp hz))
        · rcases List.mem_cons.mp hy with rfl | hy
          · exact Nat.not_lt.mp hz
          · exact Nat.le_trans (ha y hy) (Nat.not_lt.mp hz)

/-! ### Keys in order -/

section Ordered

variable [Preorder κ] {y : κ × ℕ}

theorem ordered_split (hord : (before ++ x :: after).Pairwise (fun y z => y.1 < z.1)) :
    (∀ y ∈ before, y.1 < x.1) ∧ ∀ y ∈ after, x.1 < y.1 := by
  obtain ⟨_, htail, hcross⟩ := List.pairwise_append.mp hord
  exact ⟨fun y hy => hcross y hy x List.mem_cons_self, (List.pairwise_cons.mp htail).1⟩

/-- Where the keys are in order, what stands before an element has a smaller key. -/
theorem mem_before_iff (hord : (before ++ x :: after).Pairwise (fun y z => y.1 < z.1)) :
    y ∈ before ↔ y ∈ before ++ x :: after ∧ y.1 < x.1 := by
  obtain ⟨hb, ha⟩ := ordered_split hord
  refine ⟨fun hy => ⟨List.mem_append_left _ hy, hb y hy⟩, ?_⟩
  rintro ⟨hy, hlt⟩
  rcases List.mem_append.mp hy with hy | hy
  · exact hy
  · rcases List.mem_cons.mp hy with rfl | hy
    · exact absurd hlt (lt_irrefl _)
    · exact absurd hlt (lt_asymm (ha y hy))

end Ordered

end Lib
