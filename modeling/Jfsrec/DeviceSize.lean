import Jfsrec.Device
import Mathlib.Data.Nat.Basic
import Mathlib.Tactic.Ring
import Mathlib.Tactic.SplitIfs

/-!
# The size of a device by probing

Where no `ioctl` is compiled in, `get_size_bytes` finds the size of the device by reading
single bytes: at 2^24 - 1, 2^25 - 1 and so on, and then in a binary search.  Both loops take
the value that `fgetc` returns, a byte, for a number of bytes read: they go on as after a
valid position only if the byte is 1.  The search ends when the last valid position and the
first invalid one are two apart.

`getSizeByProbing_eq` says that what comes out are the binary digits of the size as far as
the search sees them, `approx`.  Positions are of type `off_t`; the devices are too small
for it to overflow.
-/

namespace Jfsrec

namespace Device

/-- `fseeko64` and `fgetc`; `none` is `EOF`. -/
def fgetc (dev : Device) (pos : ℕ) : Option UInt8 :=
  if pos < dev.stSize then some (dev.data pos) else none

/-- The first loop, with `Last_Valid_Position` and `Current_Position`. -/
def probe (dev : Device) : ℕ → ℕ → ℕ → Option (ℕ × ℕ)
  | 0, _, _ => none
  | fuel + 1, last, cur =>
      match dev.fgetc cur with
      | none => some (last, cur)
      | some readResult =>
          if readResult = 1 then probe dev fuel cur ((cur + 1) * 2 - 1)
          else some (cur, (cur + 1) * 2 - 1)

/-- The binary search, with `Last_Valid_Position`, `First_Invalid_Position` and
`Current_Position`. -/
def bisect (dev : Device) : ℕ → ℕ → ℕ → ℕ → Option ℕ
  | 0, _, _, _ => none
  | fuel + 1, last, first, cur =>
      if first - last > 2 then
        match dev.fgetc cur with
        | none => bisect dev fuel last cur (last + (cur - last) / 2)
        | some readResult =>
            let next := cur + (first - cur) / 2
            if readResult = 1 then bisect dev fuel cur first next
            -- the position that comes next is taken for invalid, without being tested
            else bisect dev fuel cur next (cur + (next - cur) / 2)
      else some last

/-- `get_size_bytes` without `__linux__` and `__DragonFly__`; `none` when the fuel of a loop
runs out. -/
def getSizeByProbing (dev : Device) (fuel : ℕ) : Option ℕ :=
  match dev.probe fuel 0 16777215 with
  | none => none
  | some (last, cur) =>
      -- is the drive greater than 16MB?
      if last = 0 then some (if (dev.fgetc last).isSome then 1 else 0)
      else (dev.bisect fuel last cur (last + (cur - last) / 2)).map (· + 1)

def SizedExactly (dev : Device) : Prop :=
  ∃ n, ∀ fuel, n ≤ fuel → dev.getSizeByProbing fuel = some dev.stSize

/-- What the search makes of a size of which the digits from `j` on are those of `size`. -/
def approx (dev : Device) : ℕ → ℕ → ℕ
  | 0, size => size
  | 1, size => size
  | j + 2, size =>
      if size + 2 ^ (j + 1) ≤ dev.stSize then
        if dev.data (size + 2 ^ (j + 1) - 1) = 1 then approx dev (j + 1) (size + 2 ^ (j + 1))
        else approx dev j (size + 2 ^ (j + 1))
      else approx dev (j + 1) size

variable {dev : Device} {fuel j k size pos : ℕ}

theorem fgetc_of_lt (h : pos < dev.stSize) : dev.fgetc pos = some (dev.data pos) := if_pos h

theorem fgetc_of_le (h : dev.stSize ≤ pos) : dev.fgetc pos = none := if_neg (Nat.not_lt.mpr h)

/-! ### The binary search -/

/-- **The search computes the approximation**, from a last valid position `size - 1` and a first
invalid one `2 ^ j` behind it. -/
theorem bisect_eq (hsize : 0 < size) (hfuel : j < fuel) :
    dev.bisect fuel (size - 1) (size - 1 + 2 ^ j) (size - 1 + 2 ^ j / 2) =
      some (dev.approx j size - 1) := by
  induction j using Nat.strong_induction_on generalizing fuel size with
  | _ j ih =>
    obtain ⟨fuel, rfl⟩ : ∃ n, fuel = n + 1 := ⟨fuel - 1, by omega⟩
    match j, ih with
    | 0, _ => rw [bisect, if_neg (by simp), approx]
    | 1, _ => rw [bisect, if_neg (by simp), approx]
    | j + 2, ih =>
      have hpow : 2 ^ (j + 2) = 2 * 2 ^ (j + 1) := by rw [Nat.pow_succ, Nat.mul_comm]
      have hpow' : 2 ^ (j + 1) = 2 * 2 ^ j := by rw [Nat.pow_succ, Nat.mul_comm]
      have hpos : 0 < 2 ^ j := Nat.two_pow_pos j
      rw [bisect, if_pos (by omega), approx]
      have hcur : size - 1 + 2 ^ (j + 2) / 2 = size + 2 ^ (j + 1) - 1 := by omega
      rw [hcur]
      by_cases hvalid : size + 2 ^ (j + 1) ≤ dev.stSize
      · rw [if_pos hvalid, fgetc_of_lt (by omega)]
        dsimp only
        have hnext : size + 2 ^ (j + 1) - 1 +
            (size - 1 + 2 ^ (j + 2) - (size + 2 ^ (j + 1) - 1)) / 2 =
              size + 2 ^ (j + 1) - 1 + 2 ^ j := by omega
        rw [hnext]
        split_ifs with hone
        · have hrec := @ih (j + 1) (by omega) fuel (size + 2 ^ (j + 1)) (by omega) (by omega)
          have hfirst : size - 1 + 2 ^ (j + 2) = size + 2 ^ (j + 1) - 1 + 2 ^ (j + 1) := by omega
          have hhalf : 2 ^ (j + 1) / 2 = 2 ^ j := by omega
          rw [hhalf] at hrec
          rw [hfirst, hrec]
        · have hrec := @ih j (by omega) fuel (size + 2 ^ (j + 1)) (by omega) (by omega)
          rw [Nat.add_sub_cancel_left, hrec]
      · rw [if_neg hvalid, fgetc_of_le (by omega)]
        dsimp only
        have hrec := @ih (j + 1) (by omega) fuel size hsize (by omega)
        have hfirst : size + 2 ^ (j + 1) - 1 = size - 1 + 2 ^ (j + 1) := by omega
        rw [hfirst, Nat.add_sub_cancel_left, hrec]

/-! ### When the approximation is exact -/

theorem approx_bounds (j size : ℕ) :
    size ≤ dev.approx j size ∧ dev.approx j size < size + 2 ^ j := by
  induction j using Nat.strong_induction_on generalizing size with
  | _ j ih =>
    match j, ih with
    | 0, _ => exact ⟨le_rfl, Nat.lt_succ_self _⟩
    | 1, _ => exact ⟨le_rfl, Nat.lt_add_of_pos_right (by decide)⟩
    | j + 2, ih =>
      have hpow : 2 ^ (j + 2) = 2 * 2 ^ (j + 1) := by rw [Nat.pow_succ, Nat.mul_comm]
      have hpow' : 2 ^ (j + 1) = 2 * 2 ^ j := by rw [Nat.pow_succ, Nat.mul_comm]
      rw [approx]
      split_ifs
      · have hb := ih (j + 1) (by omega) (size + 2 ^ (j + 1))
        omega
      · have hb := ih j (by omega) (size + 2 ^ (j + 1))
        omega
      · have hb := ih (j + 1) (by omega) size
        omega

def digitsFrom (dev : Device) (j : ℕ) : ℕ := dev.stSize / 2 ^ j * 2 ^ j

/-- Behind every digit 1 that is followed by another, the byte at the position that is tested
for it is 1. -/
def SeenBelow (dev : Device) (j : ℕ) : Prop :=
  ∀ h, h + 2 ≤ j → dev.stSize / 2 ^ h % 4 = 3 → dev.data (dev.digitsFrom (h + 1) - 1) = 1

theorem digitsFrom_bounds (dev : Device) (j : ℕ) :
    dev.digitsFrom j ≤ dev.stSize ∧ dev.stSize < dev.digitsFrom j + 2 ^ j := by
  have hdiv := Nat.div_add_mod dev.stSize (2 ^ j)
  have hmod := Nat.mod_lt dev.stSize (Nat.two_pow_pos j)
  rw [digitsFrom, Nat.mul_comm]
  omega

theorem exists_digits (dev : Device) (j : ℕ) : ∃ q t, t < 4 ∧ dev.stSize / 2 ^ j % 4 = t ∧
    dev.digitsFrom (j + 2) = 4 * q ∧ dev.digitsFrom (j + 1) = 4 * q + t / 2 * (2 * 2 ^ j) ∧
    dev.digitsFrom j = 4 * q + t * 2 ^ j := by
  have hone : dev.stSize / 2 ^ (j + 1) = dev.stSize / 2 ^ j / 2 := by
    rw [Nat.pow_succ, Nat.div_div_eq_div_mul]
  have htwo : dev.stSize / 2 ^ (j + 2) = dev.stSize / 2 ^ j / 4 := by
    rw [Nat.pow_add, Nat.div_div_eq_div_mul]
  refine ⟨dev.stSize / 2 ^ j / 4 * 2 ^ j, dev.stSize / 2 ^ j % 4, Nat.mod_lt _ (by decide), rfl,
    ?_, ?_, ?_⟩
  · rw [digitsFrom, htwo, Nat.pow_add]
    ring
  · have hsplit : dev.stSize / 2 ^ j / 2 =
        2 * (dev.stSize / 2 ^ j / 4) + dev.stSize / 2 ^ j % 4 / 2 := by omega
    rw [digitsFrom, hone, hsplit, Nat.pow_succ]
    ring
  · have hsplit : dev.stSize / 2 ^ j = 4 * (dev.stSize / 2 ^ j / 4) + dev.stSize / 2 ^ j % 4 := by
      omega
    rw [digitsFrom]
    nth_rewrite 1 [hsplit]
    ring

theorem seenBelow_succ (j : ℕ) : dev.SeenBelow (j + 2) ↔ dev.SeenBelow (j + 1) ∧
    (dev.stSize / 2 ^ j % 4 = 3 → dev.data (dev.digitsFrom (j + 1) - 1) = 1) := by
  constructor
  · intro h
    exact ⟨fun i hi => h i (by omega), h j le_rfl⟩
  · rintro ⟨hbelow, hj⟩ i hi
    rcases Nat.lt_or_ge i j with hlt | hge
    · exact hbelow i (by omega)
    · obtain rfl : i = j := by omega
      exact hj

theorem seenBelow_of_even (heven : dev.stSize / 2 ^ j % 2 = 0) :
    dev.SeenBelow (j + 1) ↔ dev.SeenBelow j := by
  refine ⟨fun h i hi => h i (by omega), fun h i hi hthree => ?_⟩
  rcases Nat.lt_or_ge (i + 1) j with hlt | hge
  · exact h i (by omega) hthree
  · obtain rfl : j = i + 1 := by omega
    rw [Nat.pow_succ, ← Nat.div_div_eq_div_mul] at heven
    omega

theorem approx_digitsFrom (j : ℕ) : dev.approx (j + 2) (dev.digitsFrom (j + 2)) =
    if dev.stSize / 2 ^ j % 4 < 2 ∨ dev.data (dev.digitsFrom (j + 1) - 1) = 1 then
      dev.approx (j + 1) (dev.digitsFrom (j + 1))
    else dev.approx j (dev.digitsFrom (j + 1)) := by
  obtain ⟨q, t, ht, rfl, htwo, hone, hzero⟩ := dev.exists_digits j
  obtain ⟨hle, hlt⟩ := dev.digitsFrom_bounds j
  have hpow : 2 ^ (j + 1) = 2 * 2 ^ j := by rw [Nat.pow_succ, Nat.mul_comm]
  generalize dev.stSize / 2 ^ j % 4 = t at *
  rw [approx]
  by_cases hdigit : t < 2
  · have hsame : dev.digitsFrom (j + 2) = dev.digitsFrom (j + 1) := by
      rw [htwo, hone, Nat.div_eq_of_lt hdigit, Nat.zero_mul, Nat.add_zero]
    have hbound : t * 2 ^ j ≤ 1 * 2 ^ j := Nat.mul_le_mul_right _ (by omega)
    rw [if_neg (by omega), if_pos (Or.inl hdigit), hsame]
  · have hhalf : t / 2 = 1 := by omega
    have hnext : dev.digitsFrom (j + 2) + 2 ^ (j + 1) = dev.digitsFrom (j + 1) := by
      rw [htwo, hone, hhalf, Nat.one_mul, hpow]
    have hbound : 2 * 2 ^ j ≤ t * 2 ^ j := Nat.mul_le_mul_right _ (by omega)
    rw [hnext, if_pos (by rw [hone, hhalf]; omega)]
    simp only [hdigit, false_or]

/-- **The approximation is the size exactly** if the last digit is 0 and the search sees all
others. -/
theorem approx_eq_iff (j : ℕ) : dev.approx j (dev.digitsFrom j) = dev.stSize ↔
    (1 ≤ j → dev.stSize % 2 = 0) ∧ dev.SeenBelow j := by
  induction j using Nat.strong_induction_on with
  | _ j ih =>
    match j, ih with
    | 0, _ => simp [approx, digitsFrom, SeenBelow]
    | 1, _ =>
      have hseen : dev.SeenBelow 1 := fun h hh => by omega
      have hdigits : dev.digitsFrom 1 = dev.stSize / 2 * 2 := rfl
      rw [approx, hdigits]
      exact ⟨fun h => ⟨fun _ => by omega, hseen⟩, fun h => by have := h.1 le_rfl; omega⟩
    | j + 2, ih =>
      have hih := ih (j + 1) (by omega)
      have hj := ih j (by omega)
      obtain ⟨q, t, ht, hdigits, _, hone, hzero⟩ := dev.exists_digits j
      obtain ⟨hle, hlt⟩ := dev.digitsFrom_bounds j
      have hposj : 1 ≤ j + 1 := by omega
      have hposj' : 1 ≤ j + 2 := by omega
      simp only [hposj, true_imp_iff] at hih
      simp only [approx_digitsFrom, seenBelow_succ, hdigits, hposj', true_imp_iff]
      by_cases hbyte : dev.data (dev.digitsFrom (j + 1) - 1) = 1
      · simp only [hbyte, or_true, if_true, implies_true, and_true, hih]
      · by_cases hlow : t < 2
        · have hthree : t ≠ 3 := by omega
          simp only [hlow, true_or, if_true, hthree, false_imp_iff, and_true, hih]
        · simp only [hlow, hbyte, false_or, if_false, imp_false]
          rcases (by omega : t = 2 ∨ t = 3) with rfl | rfl
          · -- the digit that is skipped is 0
            have heven : dev.stSize / 2 ^ j % 2 = 0 := by omega
            have hsame : dev.digitsFrom (j + 1) = dev.digitsFrom j := by
              rw [hone, hzero]
              omega
            rw [hsame, hj, seenBelow_of_even heven]
            simp only [show (2 : ℕ) ≠ 3 by decide, not_false_eq_true, and_true]
            refine and_congr_left' ⟨fun h => ?_, fun h _ => h⟩
            rcases Nat.eq_zero_or_pos j with rfl | hj0
            · rw [Nat.pow_zero, Nat.div_one] at heven
              exact heven
            · exact h hj0
          · -- the digit that is skipped is 1
            have hbound := (dev.approx_bounds j (dev.digitsFrom (j + 1))).2
            refine iff_of_false (fun h => ?_) (fun h => h.2.2 rfl)
            rw [h, hone] at hbound
            omega

/-! ### The first loop -/

/-- **The first loop** stops at a power of two within the device. -/
theorem probe_spec {d : ℕ} : ∀ {m : ℕ}, dev.stSize < 2 ^ (m + d) → 2 ^ m ≤ dev.stSize →
    ∃ k, m ≤ k ∧ 2 ^ k ≤ dev.stSize ∧
      (∀ fuel last, d < fuel →
        dev.probe fuel last (2 ^ m - 1) = some (2 ^ k - 1, 2 ^ (k + 1) - 1)) ∧
      (∀ i, m ≤ i → i < k → dev.data (2 ^ i - 1) = 1) ∧
      (2 ^ (k + 1) ≤ dev.stSize → dev.data (2 ^ k - 1) ≠ 1) := by
  induction d with
  | zero =>
    intro m hlt hle
    rw [Nat.add_zero] at hlt
    omega
  | succ d ih =>
    intro m hlt hle
    have hpos : 0 < 2 ^ m := Nat.two_pow_pos m
    have hnext : (2 ^ m - 1 + 1) * 2 - 1 = 2 ^ (m + 1) - 1 := by
      rw [Nat.sub_add_cancel hpos, Nat.pow_succ]
    by_cases hone : dev.data (2 ^ m - 1) = 1
    · by_cases hmore : 2 ^ (m + 1) ≤ dev.stSize
      · have hlt' : dev.stSize < 2 ^ (m + 1 + d) := by
          rwa [Nat.add_right_comm, Nat.add_assoc]
        obtain ⟨k, hk, hsize, hprobe, hones, hstop⟩ := ih hlt' hmore
        refine ⟨k, by omega, hsize, fun fuel last hfuel => ?_, fun i hi hik => ?_, hstop⟩
        · obtain ⟨fuel, rfl⟩ : ∃ n, fuel = n + 1 := ⟨fuel - 1, by omega⟩
          rw [probe, fgetc_of_lt (by omega)]
          dsimp only
          rw [if_pos hone, hnext, hprobe fuel _ (by omega)]
        · rcases Nat.eq_or_lt_of_le hi with rfl | hlt
          · exact hone
          · exact hones i hlt hik
      · refine ⟨m, le_rfl, hle, fun fuel last hfuel => ?_, fun i hi hik => by omega,
          fun h => absurd h hmore⟩
        obtain ⟨fuel, rfl⟩ : ∃ n, fuel = n + 2 := ⟨fuel - 2, by omega⟩
        have hpow : 2 ^ (m + 1) = 2 * 2 ^ m := by rw [Nat.pow_succ, Nat.mul_comm]
        rw [probe, fgetc_of_lt (by omega)]
        dsimp only
        rw [if_pos hone, hnext, probe, fgetc_of_le (by omega)]
    · refine ⟨m, le_rfl, hle, fun fuel last hfuel => ?_, fun i hi hik => by omega, fun _ => hone⟩
      obtain ⟨fuel, rfl⟩ : ∃ n, fuel = n + 1 := ⟨fuel - 1, by omega⟩
      rw [probe, fgetc_of_lt (by omega)]
      dsimp only
      rw [if_neg hone, hnext]

/-! ### Both loops -/

/-- What makes the two loops find the size: it is even, the bytes at the positions that are
doubled are 1, and so is the byte that is tested for a binary digit 1 of the size, other than
the first, where the next digit is 1 too. -/
structure Probeable (dev : Device) : Prop where
  even : dev.stSize % 2 = 0
  doubled : ∀ m, 24 ≤ m → 2 ^ (m + 1) ≤ dev.stSize → dev.data (2 ^ m - 1) = 1
  adjacent : ∀ h, 2 ^ (h + 2) ≤ dev.stSize → dev.stSize / 2 ^ h % 4 = 3 →
    dev.data (dev.stSize / 2 ^ (h + 1) * 2 ^ (h + 1) - 1) = 1

/-- **The loops end**, with an approximation from a power of two within the device on. -/
theorem getSizeByProbing_eq (h : 2 ^ 24 ≤ dev.stSize) : ∃ k, 24 ≤ k ∧ 2 ^ k ≤ dev.stSize ∧
    (∀ fuel, 64 ≤ fuel → dev.getSizeByProbing fuel = some (dev.approx k (2 ^ k))) ∧
    (∀ m, 24 ≤ m → m < k → dev.data (2 ^ m - 1) = 1) ∧
    (2 ^ (k + 1) ≤ dev.stSize → dev.data (2 ^ k - 1) ≠ 1) := by
  obtain ⟨k, hk, hsize, hprobe, hones, hstop⟩ := probe_spec (d := 39) dev.stSize_lt h
  refine ⟨k, hk, hsize, fun fuel hfuel => ?_, hones, hstop⟩
  have hk63 : k < 63 := (Nat.pow_lt_pow_iff_right (by decide)).mp
    (Nat.lt_of_le_of_lt hsize dev.stSize_lt)
  have hpow : 2 ^ (k + 1) = 2 * 2 ^ k := by rw [Nat.pow_succ, Nat.mul_comm]
  have hbig : 2 ^ 24 ≤ 2 ^ k := Nat.pow_le_pow_right (by decide) hk
  have hfirst : 2 ^ (k + 1) - 1 = 2 ^ k - 1 + 2 ^ k := by omega
  have hcur : 2 ^ k - 1 + (2 ^ k - 1 + 2 ^ k - (2 ^ k - 1)) / 2 = 2 ^ k - 1 + 2 ^ k / 2 := by
    rw [Nat.add_sub_cancel_left]
  have hge := (dev.approx_bounds k (2 ^ k)).1
  rw [getSizeByProbing, show 16777215 = 2 ^ 24 - 1 from rfl, hprobe fuel 0 (by omega)]
  dsimp only
  rw [if_neg (by omega), hfirst, hcur, bisect_eq (by omega) (by omega), Option.map_some,
    Nat.sub_add_cancel (by omega)]

/-- **The size is found exactly for these devices**, and the loops end for all. -/
theorem sizedExactly_iff (dev : Device) (h : 2 ^ 24 ≤ dev.stSize) :
    (∃ size, ∀ fuel, 64 ≤ fuel → dev.getSizeByProbing fuel = some size) ∧
      (dev.SizedExactly ↔ dev.Probeable) := by
  obtain ⟨k, hk, hsize, hget, hones, hstop⟩ := getSizeByProbing_eq h
  refine ⟨⟨_, hget⟩, ?_⟩
  have hexact : dev.SizedExactly ↔ dev.approx k (2 ^ k) = dev.stSize := by
    constructor
    · rintro ⟨n, hn⟩
      have hboth := hn (max n 64) (Nat.le_max_left _ _)
      rw [hget _ (Nat.le_max_right _ _)] at hboth
      exact Option.some.inj hboth
    · intro heq
      exact ⟨64, fun fuel hfuel => by rw [hget fuel hfuel, heq]⟩
  rw [hexact]
  have hpow : 2 ^ (k + 1) = 2 * 2 ^ k := by rw [Nat.pow_succ, Nat.mul_comm]
  by_cases hlt : dev.stSize < 2 ^ (k + 1)
  · have hdigits : dev.digitsFrom k = 2 ^ k := by
      rw [digitsFrom, Nat.div_eq_of_lt_le (k := 1) (by omega) (by omega), Nat.one_mul]
    have hle : ∀ n, n ≤ k ↔ 2 ^ n ≤ dev.stSize := by
      intro n
      refine ⟨fun hn => (Nat.pow_le_pow_right (by decide) hn).trans hsize, fun hn => ?_⟩
      have hnk := (Nat.pow_lt_pow_iff_right (a := 2) (by decide)).mp (Nat.lt_of_le_of_lt hn hlt)
      omega
    rw [← hdigits, approx_eq_iff]
    constructor
    · rintro ⟨heven, hseen⟩
      exact ⟨heven (by omega), fun m hm hpm => hones m hm ((hle (m + 1)).mpr hpm),
        fun i hi => hseen i ((hle (i + 2)).mpr hi)⟩
    · rintro ⟨heven, _, hadj⟩
      exact ⟨fun _ => heven, fun i hi => hadj i ((hle (i + 2)).mp hi)⟩
  · refine iff_of_false (fun heq => ?_) (fun hp => ?_)
    · have hbound := (dev.approx_bounds k (2 ^ k)).2
      omega
    · exact hstop (Nat.not_lt.mp hlt) (hp.doubled k hk (Nat.not_lt.mp hlt))

def zeros (stSize : ℕ) (h : stSize < 2 ^ 63) : Device where
  blocksize := .b4096
  isBlk := false
  stSize := stSize
  data := fun _ => 0
  stSize_lt := h

theorem sizedExactly_sixteen : (zeros (2 ^ 24) (by decide)).SizedExactly := by
  refine ((sizedExactly_iff (zeros (2 ^ 24) (by decide)) le_rfl).2).mpr ⟨by decide, ?_, ?_⟩
  · intro m hm hle
    have hlt := (Nat.pow_le_pow_iff_right (a := 2) (by decide)).mp hle
    omega
  · intro i hi hthree
    have hi22 : i + 2 ≤ 24 := (Nat.pow_le_pow_iff_right (a := 2) (by decide)).mp hi
    have hsize : (zeros (2 ^ 24) (by decide)).stSize / 2 ^ i = 2 ^ (22 - i) * 4 := by
      show 2 ^ 24 / 2 ^ i = _
      rw [Nat.pow_div (by omega) (by decide), show 24 - i = 22 - i + 2 by omega, Nat.pow_add]
    rw [hsize, Nat.mul_mod_left] at hthree
    cases hthree

/-- **Thirty-two megabytes of zeros are not.** -/
theorem not_sizedExactly_thirtytwo : ¬ (zeros (2 ^ 25) (by decide)).SizedExactly := by
  rintro ⟨n, hn⟩
  obtain ⟨k, hk, _, hget, hones, _⟩ :=
    getSizeByProbing_eq (show 2 ^ 24 ≤ (zeros (2 ^ 25) (by decide)).stSize by decide)
  -- the byte at the first position is not 1, and the loop stops there
  have hk24 : k = 24 := by
    by_contra hne
    exact absurd (hones 24 le_rfl (by omega)) (by decide)
  subst hk24
  have hboth := hn (max n 64) (Nat.le_max_left _ _)
  rw [hget _ (Nat.le_max_right _ _)] at hboth
  have hbound := ((zeros (2 ^ 25) (by decide)).approx_bounds 24 (2 ^ 24)).2
  rw [Option.some.inj hboth] at hbound
  exact absurd hbound (by decide)

end Device

end Jfsrec
