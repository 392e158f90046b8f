import Jfsrec.Lib.Loop
import Mathlib.Data.Nat.Find

/-!
# Runs

`step j` says that position `j + 1` continues position `j`.  A run is a block of
positions each of which continues the one before; it is maximal if neither end
can be moved.  Every position lies in exactly one maximal run, and every run
through the position lies in it.

How far `countWhile` gets is how far it is to the ends of the maximal run.
-/

namespace Lib

variable {step : ℕ → Bool} {a b m n i : ℕ}

def Run (step : ℕ → Bool) (a n : ℕ) : Prop := ∀ k, k + 1 < n → step (a + k) = true

structure MaximalRun (step : ℕ → Bool) (a n : ℕ) : Prop where
  run : Run step a n
  pos : 0 < n
  left : a = 0 ∨ step (a - 1) = false
  right : step (a + n - 1) = false

theorem Run.step_eq_true (h : Run step a n) {j : ℕ} (h1 : a ≤ j) (h2 : j + 1 < a + n) :
    step j = true := by
  have hj := h (j - a) (by omega)
  rwa [show a + (j - a) = j by omega] at hj

theorem MaximalRun.contains (hm : MaximalRun step a n) (hr : Run step b m) (ha : a ≤ i)
    (hn : i < a + n) (hb : b ≤ i) (hi : i < b + m) : a ≤ b ∧ b + m ≤ a + n := by
  refine ⟨?_, ?_⟩
  · by_contra hlt
    rcases hm.left with h0 | h0
    · omega
    · rw [hr.step_eq_true (by omega) (by omega)] at h0
      cases h0
  · by_contra hlt
    have h0 := hm.right
    rw [hr.step_eq_true (by omega) (by omega)] at h0
    cases h0

/-- The first position from `i` on that nothing continues. -/
theorem exists_stop {len : ℕ} (hend : ∀ j, len ≤ j + 1 → step j = false) (i : ℕ) :
    ∃ e, i ≤ e ∧ step e = false ∧ ∀ j, i ≤ j → j < e → step j = true := by
  have hex : ∃ e, i ≤ e ∧ step e = false := ⟨i + len, by omega, hend _ (by omega)⟩
  refine ⟨Nat.find hex, (Nat.find_spec hex).1, (Nat.find_spec hex).2, ?_⟩
  intro j hij hj
  have hmin := Nat.find_min hex hj
  by_contra hne
  exact hmin ⟨hij, eq_false_of_ne_true hne⟩

/-- The first position from which a run leads to `i`. -/
theorem exists_start (i : ℕ) :
    ∃ a ≤ i, (a = 0 ∨ step (a - 1) = false) ∧ ∀ j, a ≤ j → j < i → step j = true := by
  classical
  have hex : ∃ a, a ≤ i ∧ ∀ j, a ≤ j → j < i → step j = true := ⟨i, Nat.le_refl i, by omega⟩
  obtain ⟨hle, hrun⟩ := Nat.find_spec hex
  refine ⟨Nat.find hex, hle, ?_, hrun⟩
  by_cases h0 : Nat.find hex = 0
  · exact Or.inl h0
  · refine Or.inr (eq_false_of_ne_true (fun htrue => ?_))
    refine Nat.find_min hex (show Nat.find hex - 1 < Nat.find hex by omega) ⟨by omega, ?_⟩
    intro j hj hji
    by_cases hje : j = Nat.find hex - 1
    · rw [hje]
      exact htrue
    · exact hrun j (by omega) hji

theorem exists_maximalRun {len : ℕ} (hend : ∀ j, len ≤ j + 1 → step j = false) (i : ℕ) :
    ∃ a n, MaximalRun step a n ∧ a ≤ i ∧ i < a + n := by
  obtain ⟨e, hie, hstop, hright⟩ := exists_stop hend i
  obtain ⟨a, hai, hstart, hleft⟩ := @exists_start step i
  refine ⟨a, e + 1 - a, ⟨?_, by omega, hstart, ?_⟩, hai, by omega⟩
  · intro k hk
    by_cases hlt : a + k < i
    · exact hleft _ (by omega) hlt
    · exact hright _ (by omega) (by omega)
  · rw [show a + (e + 1 - a) - 1 = e by omega]
    exact hstop

/-! ### Counting along a run -/

variable {cap fuel j : ℕ} {go : ℕ → Bool} {move : ℕ → ℕ}

theorem countWhile_le_of_stop (hstop : go (move^[m] j) = false) :
    countWhile cap go move fuel j n ≤ n + 1 + m := by
  induction fuel generalizing j n m with
  | zero =>
    rw [countWhile]
    omega
  | succ fuel ih =>
    rw [countWhile]
    split
    · rename_i hgo
      cases m with
      | zero =>
        rw [Function.iterate_zero, id_eq, hgo.1] at hstop
        cases hstop
      | succ m =>
        have hle : countWhile cap go move fuel (move j) (n + 1) ≤ n + 1 + 1 + m := ih hstop
        omega
    · omega

theorem countWhile_le_max : countWhile cap go move fuel j n ≤ max (n + 1) cap := by
  induction fuel generalizing j n with
  | zero =>
    rw [countWhile]
    omega
  | succ fuel ih =>
    rw [countWhile]
    split
    · rename_i hgo
      have hle : countWhile cap go move fuel (move j) (n + 1) ≤ max (n + 1 + 1) cap := ih
      omega
    · omega

/-- The count is that of the walk up to where it stops, cut off at the cap. -/
theorem countWhile_eq (hfuel : cap ≤ fuel) (hcap : 0 < cap)
    (hgo : ∀ k < m, go (move^[k] j) = true) (hstop : go (move^[m] j) = false) :
    countWhile cap go move fuel j n = max (n + 1) (min cap (n + 1 + m)) := by
  have hle : countWhile cap go move fuel j n ≤ n + 1 + m := countWhile_le_of_stop hstop
  have hmax : countWhile cap go move fuel j n ≤ max (n + 1) cap := countWhile_le_max
  have hge : min cap (n + 1 + min m (cap - 1)) ≤ countWhile cap go move fuel j n :=
    countWhile_ge (by omega) (fun k hk => hgo k (by omega))
  have hsucc : n + 1 ≤ countWhile cap go move fuel j n := by
    obtain ⟨f, rfl⟩ : ∃ f, fuel = f + 1 := ⟨fuel - 1, by omega⟩
    rw [countWhile]
    split
    · exact le_countWhile _ _ _
    · exact Nat.le_refl _
  omega

end Lib
