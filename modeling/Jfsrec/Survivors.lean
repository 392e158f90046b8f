import Jfsrec.ExtentRuns
import Jfsrec.Restarts

/-!
# What a scan keeps

The stages behind the scan count along the positions of a list.  Since the list ascends with the
device, each of them is a set of inodes that can be told without the list: those of one stamp, those
that lie in a row of 32 slots, those that are allocated, and of each number the newest.
`scan_keeps` reads what a scan ends with off the device.
-/

namespace Jfsrec

open Lib InodeVector

/-! ### Sets of inodes -/

/-- From `y` on `n` inodes of the set lie in slots one behind the other, and are numbered in
turn. -/
def Row (S : Set View) (n : ℕ) (y : View) : Prop :=
  ∀ k < n, ∃ z ∈ S, z.byteOffset = y.byteOffset + k * 512 ∧ z.diNumber = y.diNumber + k

/-- `x` lies in the row of `n` that begins with `y`. -/
def InRow (S : Set View) (n : ℕ) (y x : View) : Prop :=
  Row S n y ∧ ∃ k < n, x.byteOffset = y.byteOffset + k * 512

/-- What `detect_ino_extents` takes for an extent: a row of 32, and also one of 31, but if it is the
first of all only its first inode. -/
def InExtent (S : Set View) (x : View) : Prop :=
  ∃ y ∈ S, InRow S 32 y x ∨
    InRow S 31 y x ∧ ((∃ z ∈ S, z.byteOffset < y.byteOffset) ∨ x.byteOffset = y.byteOffset)

/-- No inode of that number is newer, and none of the same age lies before it. -/
def Newest (S : Set View) (x : View) : Prop :=
  ∀ y ∈ S, y.diNumber = x.diNumber →
    y.otime < x.otime ∨ y.otime = x.otime ∧ x.byteOffset ≤ y.byteOffset

/-- The most common stamp, of which a hundredth are more than there are of any smaller one. -/
structure Prevails (stamps : List ℕ) (s : ℕ) : Prop where
  first : FirstMostCommon stamps s
  pos : 0 < stamps.count s / 100
  lt : ∀ t ∈ stamps, t < s → stamps.count t < stamps.count s / 100

namespace Device

variable (dev : Device)

/-- The inodes that `filter_inostamps` leaves. -/
def stamped : Set View :=
  {x | x ∈ dev.found ∧
    ∀ s, Prevails (dev.found.map (fun y => y.dinode.diInostamp)) s → x.dinode.diInostamp = s}

/-- Those that `detect_ino_extents` leaves. -/
def inExtents : Set View := {x | x ∈ dev.stamped ∧ InExtent dev.stamped x}

/-- Those that `remove_unallocated` leaves. -/
def allocated : Set View := {x | x ∈ dev.inExtents ∧ x.dinode.diNlink ≠ 0}

/-- Those that `remove_dupes` leaves. -/
def survivors : Set View := {x | x ∈ dev.allocated ∧ Newest dev.allocated x}

end Device

/-! ### Lists along the device -/

/-- The inodes of a list in the order of their slots. -/
structure Laid (l : List View) : Prop where
  ascending : l.Pairwise (fun x y => x.byteOffset < y.byteOffset)
  aligned : ∀ x ∈ l, x.byteOffset % 512 = 0
  number : ∀ x ∈ l, x.dinode.diNumber = x.diNumber

variable {l : List View} {S : Set View} {a i n : ℕ}

theorem Laid.keepAt (hl : Laid l) (keep : ℕ → Bool) : Laid (keepAt keep l) where
  ascending := hl.ascending.sublist (keepAt_sublist keep l)
  aligned x hx := hl.aligned x ((keepAt_sublist keep l).subset hx)
  number x hx := hl.number x ((keepAt_sublist keep l).subset hx)

theorem laid_found (dev : Device) : Laid dev.found where
  ascending := List.pairwise_map.mpr (dev.sane_pairwise 0 _)
  aligned x hx := (onDevice_found x hx).slot.1
  number x hx := by
    have hon := onDevice_found x hx
    obtain ⟨ino, hino, hfields⟩ := Option.map_eq_some_iff.mp hon.built
    obtain ⟨kind, rfl⟩ := constructByMode_eq_some hino
    rw [hon.dinode]
    exact congrArg (fun f => f.2.1) hfields

namespace Laid

variable (hl : Laid l)
include hl

theorem lt_iff {j : ℕ} (hi : i < l.length) (hj : j < l.length) :
    l[i].byteOffset < l[j].byteOffset ↔ i < j := by
  have h := List.pairwise_iff_getElem.mp hl.ascending
  constructor
  · intro hlt
    by_contra hge
    rcases Nat.lt_or_eq_of_le (Nat.le_of_not_lt hge) with hji | rfl
    · exact absurd (h j i hj hi hji) (by omega)
    · omega
  · exact h i j hi hj

theorem eq_of_byteOffset {j : ℕ} (hi : i < l.length) (hj : j < l.length)
    (heq : l[i].byteOffset = l[j].byteOffset) : i = j := by
  rcases Nat.lt_trichotomy i j with h | h | h
  · have := (hl.lt_iff hi hj).mpr h
    omega
  · exact h
  · have := (hl.lt_iff hj hi).mpr h
    omega

theorem continues_iff (hi : i < l.length) : continues l i = true ↔
    ∃ z ∈ l, z.byteOffset = l[i].byteOffset + 512 ∧ z.diNumber = l[i].diNumber + 1 := by
  have hget : l[i]? = some l[i] := List.getElem?_eq_getElem hi
  constructor
  · intro h
    have hlt : i + 1 < l.length := by
      by_contra hge
      rw [continues_end (by omega)] at h
      cases h
    rw [continues, hget, List.getElem?_eq_getElem hlt] at h
    simp only [Bool.and_eq_true, beq_iff_eq] at h
    rw [hl.number _ (List.getElem_mem hi), hl.number _ (List.getElem_mem hlt)] at h
    exact ⟨_, List.getElem_mem hlt, h.2, h.1⟩
  · rintro ⟨z, hz, hoff, hnum⟩
    rw [continues, hget, getElem?_next hl.ascending hl.aligned hget hz hoff]
    simp only [Bool.and_eq_true, beq_iff_eq]
    rw [hl.number _ (List.getElem_mem hi), hl.number _ hz]
    exact ⟨hnum, hoff⟩

/-! ### Rows are runs -/

theorem run_offset (hrun : Run (continues l) a n) (hlen : a + n ≤ l.length) {k : ℕ} (hk : k < n) :
    l[a + k].byteOffset = l[a].byteOffset + k * 512 ∧
      l[a + k].diNumber = l[a].diNumber + k := by
  induction k with
  | zero => exact ⟨by simp, by simp⟩
  | succ k ih =>
    obtain ⟨hoff, hnum⟩ := ih (by omega)
    obtain ⟨z, hz, hzoff, hznum⟩ := (hl.continues_iff (by omega)).mp (hrun k (by omega))
    obtain ⟨j, hj, rfl⟩ := List.mem_iff_getElem.mp hz
    have hnext := getElem?_next hl.ascending hl.aligned
      (List.getElem?_eq_getElem (show a + k < l.length by omega)) hz hzoff
    obtain ⟨_, heq⟩ := List.getElem?_eq_some_iff.mp hnext
    have hidx : l[a + (k + 1)] = l[j] := heq
    rw [hidx]
    exact ⟨by omega, by omega⟩

/-- **A run of positions is a row of slots.** -/
theorem run_iff_row (ha : a < l.length) (hn : 0 < n) :
    Run (continues l) a n ∧ a + n ≤ l.length ↔ Row {x | x ∈ l} n l[a] := by
  constructor
  · rintro ⟨hrun, hlen⟩ k hk
    exact ⟨l[a + k], List.getElem_mem _, hl.run_offset hrun hlen hk⟩
  · intro hrow
    have hat : ∀ k, k < n → ∃ h : a + k < l.length,
        l[a + k].byteOffset = l[a].byteOffset + k * 512 ∧
          l[a + k].diNumber = l[a].diNumber + k := by
      intro k
      induction k with
      | zero => exact fun _ => ⟨ha, by simp, by simp⟩
      | succ k ih =>
        intro hk
        obtain ⟨hlt, hoff, hnum⟩ := ih (by omega)
        obtain ⟨z, hz, hzoff, hznum⟩ := hrow (k + 1) hk
        have hnext := getElem?_next hl.ascending hl.aligned (List.getElem?_eq_getElem hlt) hz
          (by omega)
        obtain ⟨hlt', rfl⟩ := List.getElem?_eq_some_iff.mp hnext
        exact ⟨hlt', hzoff, hznum⟩
    refine ⟨fun k hk => ?_, ?_⟩
    · obtain ⟨hlt, hoff, hnum⟩ := hat k (by omega)
      obtain ⟨hlt', hoff', hnum'⟩ := hat (k + 1) hk
      exact (hl.continues_iff hlt).mpr ⟨_, List.getElem_mem hlt', by omega, by omega⟩
    · obtain ⟨hlt, -⟩ := hat (n - 1) (by omega)
      omega

theorem inRow_iff (ha : a < l.length) (hi : i < l.length) (hn : 0 < n) :
    InRow {x | x ∈ l} n l[a] l[i] ↔
      Run (continues l) a n ∧ a + n ≤ l.length ∧ a ≤ i ∧ i < a + n := by
  rw [InRow, ← hl.run_iff_row ha hn, and_assoc]
  refine and_congr_right (fun hrun => and_congr_right (fun hlen => ?_))
  constructor
  · rintro ⟨k, hk, hoff⟩
    have hpos := hl.eq_of_byteOffset (show a + k < l.length by omega) hi
      ((hl.run_offset hrun hlen hk).1.trans hoff.symm)
    omega
  · rintro ⟨hle, hlt⟩
    obtain ⟨k, rfl⟩ := Nat.exists_eq_add_of_le hle
    exact ⟨k, by omega, (hl.run_offset hrun hlen (by omega)).1⟩

/-! ### The stages -/

/-- **What `detect_ino_extents` keeps.** -/
theorem keepExtent_iff_inExtent (hi : i < l.length) :
    keepExtent l i = true ↔ InExtent {x | x ∈ l} l[i] := by
  obtain ⟨a, n, hm, ha, hin⟩ := exists_maximalRun_continues l i
  have hlen := maximalRun_le_length hm ha hi
  have hsub : ∀ {b m}, a ≤ b → b + m ≤ a + n → Run (continues l) b m :=
    fun hb hbm k hk => hm.run.step_eq_true (by omega) (by omega)
  rw [keepExtent_iff hm ha hin]
  constructor
  · rintro (hn | ⟨rfl, hfirst⟩)
    · -- the last 32 of the run up to `i`, or its first 32
      have hlt : min i (a + n - 32) < l.length := by omega
      refine ⟨l[min i (a + n - 32)], List.getElem_mem hlt, Or.inl ?_⟩
      exact (hl.inRow_iff hlt hi (by decide)).mpr
        ⟨hsub (by omega) (by omega), by omega, by omega, by omega⟩
    · have hlt : a < l.length := by omega
      refine ⟨l[a], List.getElem_mem hlt, Or.inr ⟨(hl.inRow_iff hlt hi (by decide)).mpr
        ⟨hm.run, hlen, ha, hin⟩, ?_⟩⟩
      rcases Nat.eq_zero_or_pos a with rfl | hpos
      · obtain rfl := hfirst rfl
        exact Or.inr rfl
      · exact Or.inl ⟨l[0], List.getElem_mem (by omega), (hl.lt_iff _ hlt).mpr hpos⟩
  · rintro ⟨y, hy, hrow⟩
    obtain ⟨b, hb, rfl⟩ := List.mem_iff_getElem.mp hy
    rcases hrow with hrow | ⟨hrow, hfirst⟩
    · obtain ⟨hrun, -, hbi, hib⟩ := (hl.inRow_iff hb hi (by decide)).mp hrow
      have := hm.contains hrun ha hin hbi hib
      omega
    · obtain ⟨hrun, -, hbi, hib⟩ := (hl.inRow_iff hb hi (by decide)).mp hrow
      have hab := hm.contains hrun ha hin hbi hib
      rcases Nat.lt_or_ge n 32 with hlt | hge
      · obtain rfl : b = a := by omega
        refine Or.inr ⟨by omega, ?_⟩
        rintro rfl
        rcases hfirst with ⟨z, hz, hlow⟩ | heq
        · obtain ⟨j, hj, rfl⟩ := List.mem_iff_getElem.mp hz
          have := (hl.lt_iff hj hb).mp hlow
          omega
        · exact hl.eq_of_byteOffset hi hb heq
      · exact Or.inl hge

/-- **What `remove_dupes` keeps.** -/
theorem keepNewest_iff_newest (hi : i < l.length) :
    keepNewest l i = true ↔ Newest {x | x ∈ l} l[i] := by
  rw [keepNewest, List.getElem?_eq_getElem hi, Option.all_some, Bool.and_eq_true, List.all_eq_true,
    List.all_eq_true]
  simp only [decide_eq_true_eq]
  constructor
  · rintro ⟨hbefore, hbehind⟩ y hy hnum
    obtain ⟨j, hj, rfl⟩ := List.mem_iff_getElem.mp hy
    rcases Nat.lt_trichotomy j i with hlt | rfl | hlt
    · exact Or.inl (hbefore _ (List.mem_take_iff_getElem.mpr ⟨j, by omega, rfl⟩) hnum)
    · exact Or.inr ⟨rfl, Nat.le_refl _⟩
    · have hmem : l[j] ∈ l.drop (i + 1) :=
        List.mem_drop_iff_getElem.mpr ⟨j - (i + 1), by omega, by congr 1; omega⟩
      rcases lt_or_eq_of_le (hbehind _ hmem hnum) with h | h
      · exact Or.inl h
      · exact Or.inr ⟨h, Nat.le_of_lt ((hl.lt_iff hi hj).mpr hlt)⟩
  · intro h
    refine ⟨fun y hy hnum => ?_, fun y hy hnum => ?_⟩
    · obtain ⟨j, hj, rfl⟩ := List.mem_take_iff_getElem.mp hy
      have hlow := (hl.lt_iff (show j < l.length by omega) hi).mpr (by omega)
      rcases h _ (List.getElem_mem _) hnum with hlt | ⟨-, hle⟩
      · exact hlt
      · omega
    · rcases h y (List.mem_of_mem_drop hy) hnum with hlt | ⟨heq, -⟩
      · exact le_of_lt hlt
      · exact le_of_eq heq

end Laid

/-! ### The scan -/

variable (dev : Device)

theorem mem_stamped : {x | x ∈ keepAt (keepInostamp dev.found) dev.found} = dev.stamped := by
  ext x
  show x ∈ keepAt _ _ ↔ _
  rw [keepAt_keepInostamp, List.mem_filter, Option.all_eq_true]
  simp only [beq_iff_eq, stampKept, dominantInostamp_eq_some]
  exact and_congr_right (fun _ =>
    ⟨fun h s hs => h s ⟨hs.first, hs.pos, hs.lt⟩, fun h s hs => h s ⟨hs.1, hs.2.1, hs.2.2⟩⟩)

theorem mem_inExtents {l : List View} (hl : Laid l) (h : {x | x ∈ l} = dev.stamped) :
    {x | x ∈ keepAt (keepExtent l) l} = dev.inExtents := by
  ext x
  rw [Device.inExtents, ← h]
  exact mem_keepAt_iff (fun i hi => hl.keepExtent_iff_inExtent hi)

theorem mem_allocated {l : List View} (h : {x | x ∈ l} = dev.inExtents) :
    {x | x ∈ keepAt (keepAllocated l) l} = dev.allocated := by
  ext x
  show x ∈ keepAt _ _ ↔ _
  rw [keepAt_keepAllocated, List.mem_filter, Device.allocated, ← h, bne_iff_ne]
  exact Iff.rfl

theorem mem_survivors {l : List View} (hl : Laid l) (h : {x | x ∈ l} = dev.allocated) :
    {x | x ∈ keepAt (keepNewest l) l} = dev.survivors := by
  ext x
  rw [Device.survivors, ← h]
  exact mem_keepAt_iff (fun i hi => hl.keepNewest_iff_newest hi)

theorem left_survivors : Laid (Stage.postRemoveDupes.left dev.found) ∧
    {x | x ∈ Stage.postRemoveDupes.left dev.found} = dev.survivors := by
  have h1 := (laid_found dev).keepAt (keepInostamp dev.found)
  have h2 := h1.keepAt (keepExtent (keepAt (keepInostamp dev.found) dev.found))
  exact ⟨(h2.keepAt (keepAllocated _)).keepAt (keepNewest _),
    mem_survivors dev (h2.keepAt (keepAllocated _))
      (mem_allocated dev (mem_inExtents dev h1 (mem_stamped dev)))⟩

/-- **What a scan keeps**, in the order of the device: the inodes of the stamp that is left, in rows
of 32 (or 31), allocated, and the newest of their number. -/
theorem scan_keeps {env : Env} (hbig : chunkBytes env.device ≤ env.device.getSizeBytes)
    (ok : Bool) :
    ∃ s, Scanner.scan env ⟨start ok, fun _ => none⟩ = (.ok (), s) ∧
      (s.inovec.views env).Pairwise (fun x y => x.byteOffset < y.byteOffset) ∧
      ∀ x, x ∈ s.inovec.views env ↔ x ∈ env.device.survivors := by
  obtain ⟨s, hscan, hviews⟩ := exists_uninterrupted hbig ok
  obtain ⟨hlaid, hmem⟩ := left_survivors env.device
  refine ⟨s, hscan, ?_⟩
  rw [hviews]
  exact ⟨hlaid.ascending, fun x => Set.ext_iff.mp hmem x⟩

theorem scan_keeps_extentDisk : ∃ x ∈ extentDisk.device.survivors, x.diNumber = 31 := by
  have hbig : chunkBytes extentDisk.device ≤ extentDisk.device.getSizeBytes := by decide
  obtain ⟨s, hscan, _, hmem⟩ := scan_keeps hbig true
  obtain ⟨x, hx, hnum⟩ := Option.map_eq_some_iff.mp last_extentDisk
  have hviews := views_uninterrupted hbig true
  rw [hscan] at hviews
  refine ⟨x, (hmem x).mp ?_, hnum⟩
  rw [hviews]
  exact List.mem_of_getLast? hx

end Jfsrec
