import Jfsrec.Lib.Runs
import Jfsrec.Partition

/-!
# Which runs count as extents

An inode extent is 32 inodes in a row.  `detect_ino_extents` adds the positions
from `i` up to the end of the run and those from `i` down to its start, so that
`i` itself counts twice and 31 in a row are enough, unless the run starts at
position 0, where the backward loop stops before it has counted the first
position.  `keepExtent_iff` has the exact number, and `keptInFullExtent_iff` says
where it agrees with the 32 it should be.
-/

namespace Jfsrec

open Lib

variable {l : List View} {a i n : ℕ}

theorem exists_maximalRun_continues (l : List View) (i : ℕ) :
    ∃ a n, MaximalRun (continues l) a n ∧ a ≤ i ∧ i < a + n :=
  exists_maximalRun (fun _ hj => InodeVector.continues_end hj) i

/-- The forward loop counts the positions from `i` to the end of the run. -/
theorem countForward_run (hm : MaximalRun (continues l) a n) (ha : a ≤ i) (hi : i < a + n) :
    countWhile 32 (continues l) Nat.succ 32 i 0 = min 32 (a + n - i) := by
  have hgo : ∀ k < a + n - i - 1, continues l (Nat.succ^[k] i) = true := by
    intro k hk
    rw [Nat.succ_iterate]
    exact hm.run.step_eq_true (by omega) (by omega)
  have hstop : continues l (Nat.succ^[a + n - i - 1] i) = false := by
    rw [Nat.succ_iterate, show i + (a + n - i - 1) = a + n - 1 by omega]
    exact hm.right
  rw [countWhile_eq (by omega) (by omega) hgo hstop]
  omega

/-- The backward loop counts `i` again and the positions down to the start of the
run, but never position 0. -/
theorem countBackward_run (hm : MaximalRun (continues l) a n) (ha : a ≤ i) (hi : i < a + n)
    (m : ℕ) : countWhile 32 (continuesBack l) Nat.pred 32 i m
      = max (m + 1) (min 32 (m + 1 + (i - max 1 a))) := by
  refine countWhile_eq (by omega) (by omega) (fun k hk => ?_) ?_
  · rw [Nat.pred_iterate, continuesBack, Bool.and_eq_true, decide_eq_true_eq]
    exact ⟨by omega, hm.run.step_eq_true (by omega) (by omega)⟩
  · rw [Nat.pred_iterate, continuesBack]
    by_cases h1 : a ≤ 1
    · rw [decide_eq_false (by omega), Bool.false_and]
    · have h0 : continues l (a - 1) = false := hm.left.resolve_left (by omega)
      rw [show i - (i - max 1 a) - 1 = a - 1 by omega, h0, Bool.and_false]

/-- **How long a run has to be.**  31 inodes will do, but in a run that starts at
position 0 only for its first inode. -/
theorem keepExtent_iff (hm : MaximalRun (continues l) a n) (ha : a ≤ i) (hi : i < a + n) :
    keepExtent l i = true ↔ 32 ≤ n ∨ n = 31 ∧ (a = 0 → i = 0) := by
  rw [keepExtent, decide_eq_true_eq, extentCount, countForward_run hm ha hi,
    countBackward_run hm ha hi]
  omega

/-! ### Full extents -/

/-- `i` lies among 32 positions or more that continue each other. -/
def InFullExtent (l : List View) (i : ℕ) : Prop :=
  ∃ a n, 32 ≤ n ∧ Run (continues l) a n ∧ a ≤ i ∧ i < a + n ∧ a + n ≤ l.length

/-- The positions around `i` that continue each other are 31, and do not start at
position 0 unless `i` itself is there. -/
def OneShort (l : List View) (i : ℕ) : Prop :=
  ∃ a, MaximalRun (continues l) a 31 ∧ a ≤ i ∧ i < a + 31 ∧ (a = 0 → i = 0)

theorem maximalRun_le_length (hm : MaximalRun (continues l) a n) (ha : a ≤ i) (hl : i < l.length) :
    a + n ≤ l.length := by
  by_contra hlt
  have hend : continues l (l.length - 1) = false := InodeVector.continues_end (by omega)
  rw [hm.run.step_eq_true (by omega) (by omega)] at hend
  cases hend

theorem inFullExtent_iff (hm : MaximalRun (continues l) a n) (ha : a ≤ i) (hi : i < a + n)
    (hl : i < l.length) : InFullExtent l i ↔ 32 ≤ n := by
  refine ⟨?_, fun hn => ⟨a, n, hn, hm.run, ha, hi, maximalRun_le_length hm ha hl⟩⟩
  rintro ⟨b, m, hm32, hrun, hb, hbi, _⟩
  obtain ⟨h1, h2⟩ := hm.contains hrun ha hi hb hbi
  omega

theorem oneShort_iff (hm : MaximalRun (continues l) a n) (ha : a ≤ i) (hi : i < a + n) :
    OneShort l i ↔ n = 31 ∧ (a = 0 → i = 0) := by
  refine ⟨?_, ?_⟩
  · rintro ⟨b, hb, h1, h2, h0⟩
    obtain ⟨h3, h4⟩ := hm.contains hb.run ha hi h1 h2
    obtain ⟨h5, h6⟩ := hb.contains hm.run h1 h2 ha hi
    exact ⟨by omega, fun ha0 => h0 (by omega)⟩
  · rintro ⟨rfl, h0⟩
    exact ⟨a, hm, ha, hi, h0⟩

theorem keepExtent_imp_iff (hl : i < l.length) :
    (keepExtent l i = true → InFullExtent l i) ↔ ¬ OneShort l i := by
  obtain ⟨a, n, hm, ha, hi⟩ := exists_maximalRun_continues l i
  rw [keepExtent_iff hm ha hi, inFullExtent_iff hm ha hi hl, oneShort_iff hm ha hi]
  omega

namespace InodeVector

variable {env : Env} {v : InodeVector}

theorem Selects.mem_iff {sel : List View → ℕ → Bool} {w : InodeVector} (hs : Selects env sel v w)
    (hv : v.Ready env) (hi : i < v.inodes.length) :
    v.inodes[i] ∈ w.inodes ↔ sel (v.views env) i = true := by
  rw [hs.inodes, mem_keepAt]
  refine ⟨?_, fun hsel => ⟨i, hsel, List.getElem?_eq_getElem hi⟩⟩
  rintro ⟨j, hsel, hj⟩
  obtain ⟨hjl, he⟩ := List.getElem?_eq_some_iff.mp hj
  obtain rfl := (List.Nodup.getElem_inj_iff hv.nodup).mp he
  exact hsel

/-- **Only inodes of full extents survive**, if and only if the run around them is
not one short. -/
theorem keptInFullExtent_iff (hv : v.Ready env) (hi : i < v.inodes.length) :
    (v.inodes[i] ∈ (v.detectInoExtents env).inodes → InFullExtent (v.views env) i)
      ↔ ¬ OneShort (v.views env) i := by
  rw [(detectInoExtents_selects hv).mem_iff hv hi]
  exact keepExtent_imp_iff (by rwa [views, List.length_map])

theorem extentInodes_ready : extentInodes.Ready oneExtent :=
  (scanned_sane false (by decide) : extentInodes.Scanned oneExtent).toReady

theorem keptInFullExtent_extentInodes :
    32 ∈ (extentInodes.detectInoExtents oneExtent).inodes ∧
      InFullExtent (extentInodes.views oneExtent) 31 := by
  have hgo : ∀ k < 31, continues (extentInodes.views oneExtent) (0 + k) = true := by
    decide +kernel
  have hrun : MaximalRun (continues (extentInodes.views oneExtent)) 0 32 :=
    ⟨fun k hk => hgo k (by omega), by decide, by decide, by decide +kernel⟩
  have hlt : 31 < extentInodes.inodes.length := by decide +kernel
  have hkept : 32 ∈ (extentInodes.detectInoExtents oneExtent).inodes :=
    ((detectInoExtents_selects extentInodes_ready).mem_iff extentInodes_ready hlt).mpr
      ((keepExtent_iff hrun (by decide) (by decide)).mpr (Or.inl (by decide)))
  have hshort : ¬ OneShort (extentInodes.views oneExtent) 31 := by
    rw [oneShort_iff hrun (by decide) (by decide)]
    decide
  exact ⟨hkept, (keptInFullExtent_iff extentInodes_ready hlt).mpr hshort hkept⟩

/-- The same, except that the first inode has another number. -/
def shortExtent : Env :=
  { oneExtent.device with
    data := fun k => if k = 8 then 255 else oneExtent.device.data k }.zeroed

def shortInodes : InodeVector :=
  ((shortExtent.device.sane 0 32).map some).foldl (addBuilt addInode) (start false)

/-- Of an extent whose first inode is no longer there the others are kept. -/
theorem not_keptInFullExtent_shortInodes : shortInodes.Ready shortExtent ∧
    6 ∈ (shortInodes.detectInoExtents shortExtent).inodes ∧
      ¬ InFullExtent (shortInodes.views shortExtent) 5 := by
  have hready : shortInodes.Ready shortExtent :=
    (scanned_sane false (by decide) : shortInodes.Scanned shortExtent).toReady
  have hgo : ∀ k < 30, continues (shortInodes.views shortExtent) (1 + k) = true := by
    decide +kernel
  have hrun : MaximalRun (continues (shortInodes.views shortExtent)) 1 31 :=
    ⟨fun k hk => hgo k (by omega), by decide, by decide +kernel, by decide +kernel⟩
  have hlt : 5 < shortInodes.inodes.length := by decide +kernel
  refine ⟨hready, ?_, ?_⟩
  · exact ((detectInoExtents_selects hready).mem_iff hready hlt).mpr
      ((keepExtent_iff hrun (by decide) (by decide)).mpr (Or.inr (by decide)))
  · rw [inFullExtent_iff hrun (by decide) (by decide) (by decide +kernel)]
    decide

end InodeVector

end Jfsrec
