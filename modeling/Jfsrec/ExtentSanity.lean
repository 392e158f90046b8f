import Jfsrec.ExtentSizes
import Jfsrec.SaveFile
import Jfsrec.Lib.Loop

/-!
# The sanity check of extents

`FileInode::xads_sane` looks at the addresses, the size and the logical ranges of a
vector of extents.  Its three loops have counters of 16 bits, and it computes the size
in 32 bits per extent and compares it with `di_size` plus a block as an unsigned number.

It ends and answers `true` to sane vectors only, unless the first 65536 addresses of a
longer vector are all the same, or all else is in order and the computed size passes where
the true one would not.
-/

namespace Jfsrec

open Lib

namespace FileInode

/-- One round of the first loop, with `prev_xad_addr` and `filesize`. -/
def linearStep (env : Env) (s : ℕ × ℕ) (x : Xad) : Option (ℕ × ℕ) :=
  if s.1 > x.address then none else some (x.address, (s.2 + extentBytes env x) % 2 ^ 64)

def linearLoop (env : Env) (fuel : ℕ) (xads : List Xad) (s : ℕ × ℕ) : Option (Option (ℕ × ℕ)) :=
  forWrap (2 ^ 16) xads (fun _ x s => some (linearStep env s x)) fuel 1 s

def overlapping (a b : Xad) : Bool := a.offset + a.len > b.offset

def overlapInner (fuel : ℕ) (xads : List Xad) (i : ℕ) (a : Xad) : Option (Option Unit) :=
  forWrap (2 ^ 16) xads (fun _ b _ => some (if overlapping a b then none else some ())) fuel
    ((i + 1) % 2 ^ 16) ()

def overlapLoop (fuel : ℕ) (xads : List Xad) : Option (Option Unit) :=
  forWrap (2 ^ 16) xads (fun i a _ => overlapInner fuel xads i a) fuel 0 ()

/-- `get_dinode()->di_size+device.get_blocksize()`, in the type of `filesize`. -/
def sizeLimit (env : Env) (d : Dinode) : ℕ :=
  ((d.diSize + env.device.blocksize.bytes) % 2 ^ 64).toNat

/-- `xads_sane`, where `get_dinode` gives `d`; `none` when the fuel of a loop runs out.  An
empty vector has no `xads[0]`. -/
def xadsSane (env : Env) (d : Dinode) (fuel : ℕ) : List Xad → Option Bool
  | [] => none
  | x :: xs =>
      match linearLoop env fuel (x :: xs) (x.address, extentBytes env x) with
      | none => none
      | some none => some false
      | some (some (_, filesize)) =>
          if filesize > sizeLimit env d then some false
          else (overlapLoop fuel (x :: xs)).map Option.isSome

def Linear (xads : List Xad) : Prop := xads.Pairwise (fun a b => a.address ≤ b.address)

/-- Each logical range ends before all later ones begin. -/
def Ascending (xads : List Xad) : Prop := xads.Pairwise (fun a b => a.offset + a.len ≤ b.offset)

/-- The extents have no more bytes than `di_size`, and a block as a margin. -/
def FitsSize (env : Env) (d : Dinode) (xads : List Xad) : Prop :=
  ((xads.map (trueBytes env)).sum : ℤ) ≤ d.diSize + env.device.blocksize.bytes

/-- The same in the arithmetic of `xads_sane`. -/
def PassesSize (env : Env) (d : Dinode) (xads : List Xad) : Prop :=
  (xads.map (extentBytes env)).sum ≤ sizeLimit env d

instance (env : Env) (d : Dinode) (xads : List Xad) : Decidable (FitsSize env d xads) :=
  inferInstanceAs (Decidable (_ ≤ _))

instance (env : Env) (d : Dinode) (xads : List Xad) : Decidable (PassesSize env d xads) :=
  inferInstanceAs (Decidable (_ ≤ _))

structure Sane (env : Env) (d : Dinode) (xads : List Xad) : Prop where
  linear : Linear xads
  fits : FitsSize env d xads
  ascending : Ascending xads

def TotalSound (env : Env) (d : Dinode) (xads : List Xad) : Prop :=
  ∃ n r, (∀ fuel, n ≤ fuel → xadsSane env d fuel xads = some r) ∧ (r = true → Sane env d xads)

/-- The first 65536 of at least as many extents have one address. -/
def SameAddress (xads : List Xad) : Prop :=
  2 ^ 16 ≤ xads.length ∧ ∀ a ∈ xads.take (2 ^ 16), ∀ b ∈ xads.take (2 ^ 16), a.address = b.address

variable {env : Env} {d : Dinode} {x : Xad} {xs xads : List Xad} {fuel : ℕ}

/-! ### Up to 65535 extents -/

theorem linear_foldlM (env : Env) (xs : List Xad) (a f : ℕ) :
    ((a :: xs.map Xad.address).IsChain (· ≤ ·) ∧ ∃ a',
      xs.foldlM (linearStep env) (a, f % 2 ^ 64)
        = some (a', (f + (xs.map (extentBytes env)).sum) % 2 ^ 64)) ∨
    (¬ (a :: xs.map Xad.address).IsChain (· ≤ ·) ∧
      xs.foldlM (linearStep env) (a, f % 2 ^ 64) = none) := by
  induction xs generalizing a f with
  | nil => exact Or.inl ⟨List.isChain_singleton a, a, rfl⟩
  | cons x xs ih =>
    rw [List.foldlM_cons, List.map_cons, List.map_cons, List.isChain_cons_cons, List.sum_cons,
      ← Nat.add_assoc]
    by_cases hle : a ≤ x.address
    · have hstep : linearStep env (a, f % 2 ^ 64) x =
          some (x.address, (f + extentBytes env x) % 2 ^ 64) := by
        rw [linearStep, if_neg (Nat.not_lt.mpr hle), Nat.mod_add_mod]
      rw [hstep]
      rcases ih x.address (f + extentBytes env x) with ⟨hchain, hsome⟩ | ⟨hchain, hnone⟩
      · exact Or.inl ⟨⟨hle, hchain⟩, hsome⟩
      · exact Or.inr ⟨fun h => hchain h.2, hnone⟩
    · have hstep : linearStep env (a, f % 2 ^ 64) x = none := if_pos (Nat.not_le.mp hle)
      rw [hstep]
      exact Or.inr ⟨fun h => hle h.1, rfl⟩

theorem linear_iff_isChain : Linear xads ↔ (xads.map Xad.address).IsChain (· ≤ ·) := by
  rw [List.isChain_iff_pairwise, List.pairwise_map, Linear]

theorem extentBytes_lt (env : Env) (x : Xad) : extentBytes env x < 2 ^ 32 :=
  Nat.mod_lt _ (Nat.two_pow_pos 32)

theorem sum_extentBytes_le (env : Env) (xads : List Xad) :
    (xads.map (extentBytes env)).sum ≤ xads.length * 2 ^ 32 := by
  induction xads with
  | nil => exact Nat.zero_le _
  | cons x xs ih =>
    have hx := extentBytes_lt env x
    rw [List.map_cons, List.sum_cons, List.length_cons]
    omega

theorem sum_extentBytes_lt (env : Env) (h : xads.length < 2 ^ 16) :
    (xads.map (extentBytes env)).sum < 2 ^ 64 := by
  have hle := sum_extentBytes_le env xads
  omega

/-- **The first loop** ends, and goes through exactly if the addresses are linear. -/
theorem linearLoop_spec (env : Env) (h : (x :: xs).length < 2 ^ 16)
    (hfuel : (x :: xs).length < fuel) :
    (Linear (x :: xs) ∧ ∃ a', linearLoop env fuel (x :: xs) (x.address, extentBytes env x)
        = some (some (a', ((x :: xs).map (extentBytes env)).sum))) ∨
      (¬ Linear (x :: xs) ∧
        linearLoop env fuel (x :: xs) (x.address, extentBytes env x) = some none) := by
  have hsum := sum_extentBytes_lt env h
  have hx : extentBytes env x % 2 ^ 64 = extentBytes env x :=
    Nat.mod_eq_of_lt ((extentBytes_lt env x).trans (by decide))
  have hloop : linearLoop env fuel (x :: xs) (x.address, extentBytes env x) =
      some (xs.foldlM (linearStep env) (x.address, extentBytes env x % 2 ^ 64)) := by
    rw [linearLoop, forWrap_of_lt (g := fun p s => linearStep env s p.1) h (fun _ _ _ _ => rfl)
      (by simp) (by omega), List.drop_one, List.tail_cons,
      foldlM_zipIdx xs 1 (linearStep env), hx]
  rw [linear_iff_isChain, hloop, List.map_cons]
  rcases linear_foldlM env xs x.address (extentBytes env x) with
    ⟨hchain, a', hsome⟩ | ⟨hchain, hnone⟩
  · refine Or.inl ⟨hchain, a', ?_⟩
    rw [hsome, List.map_cons, List.sum_cons, Nat.mod_eq_of_lt (by simpa using hsum)]
  · exact Or.inr ⟨hchain, congrArg some hnone⟩

theorem overlapInner_eq (h : xads.length < 2 ^ 16) (hfuel : xads.length < fuel) {i : ℕ} {a : Xad}
    (ha : xads[i]? = some a) :
    overlapInner fuel xads i a =
      some (if (xads.drop (i + 1)).all (fun b => !overlapping a b) then some () else none) := by
  obtain ⟨hi, _⟩ := List.getElem?_eq_some_iff.mp ha
  rw [overlapInner, Nat.mod_eq_of_lt (by omega),
    forWrap_check (p := fun _ b => !overlapping a b) h ?_ (by omega) (by omega),
    all_zipIdx _ _ (fun b => !overlapping a b)]
  intro _ b _ _
  cases overlapping a b <;> rfl

theorem not_overlapping_iff {a b : Xad} :
    (!overlapping a b) = true ↔ a.offset + a.len ≤ b.offset := by
  simp [overlapping]

/-- **The other loops** end, and go through exactly if the ranges ascend. -/
theorem overlapLoop_spec (h : xads.length < 2 ^ 16) (hfuel : xads.length < fuel) :
    ∃ r, overlapLoop fuel xads = some r ∧ (r.isSome = true ↔ Ascending xads) := by
  refine ⟨_, forWrap_check (p := fun i a => (xads.drop (i + 1)).all (fun b => !overlapping a b)) h
    (fun _ _ _ ha => overlapInner_eq h hfuel ha) (Nat.zero_le _) (by omega), ?_⟩
  rw [List.drop_zero, Ascending]
  have hall := all_later_iff (fun a b => !overlapping a b) xads
  simp only [not_overlapping_iff] at hall
  rw [← hall]
  split_ifs with hc
  · exact ⟨fun _ => hc, fun _ => rfl⟩
  · exact ⟨fun hn => absurd hn Bool.false_ne_true, fun h => absurd h hc⟩

/-- **Fewer than 65536 extents**: the check ends, and with `true` exactly if addresses and
ranges are in order and the computed size passes. -/
theorem xadsSane_of_lt (env : Env) (d : Dinode) (h : (x :: xs).length < 2 ^ 16) :
    ∃ r, (∀ fuel, (x :: xs).length + 1 ≤ fuel → xadsSane env d fuel (x :: xs) = some r) ∧
      (r = true ↔ Linear (x :: xs) ∧ PassesSize env d (x :: xs) ∧ Ascending (x :: xs)) := by
  classical
  refine ⟨decide (Linear (x :: xs) ∧ PassesSize env d (x :: xs) ∧ Ascending (x :: xs)),
    fun fuel hfuel => ?_, decide_eq_true_iff⟩
  rcases linearLoop_spec env h hfuel with ⟨hlinear, a', hloop⟩ | ⟨hlinear, hloop⟩
  · obtain ⟨r, hr, hasc⟩ := overlapLoop_spec h hfuel
    have hpass : PassesSize env d (x :: xs) ↔
        ¬ ((x :: xs).map (extentBytes env)).sum > sizeLimit env d := Nat.not_lt.symm
    simp only [xadsSane, hloop, hr, hlinear, hpass, ← hasc, true_and]
    generalize ((x :: xs).map (extentBytes env)).sum = total
    by_cases hbig : total > sizeLimit env d
    · simp [hbig]
    · simp [hbig]
  · rw [xadsSane, hloop, decide_eq_false (fun hc => hlinear hc.1)]

/-! ### From 65536 extents on -/

/-- The extents at the positions that the counter takes have one address. -/
theorem sameAddress_iff (h : 2 ^ 16 ≤ (x :: xs).length) : SameAddress (x :: xs) ↔
    ∀ i a, i < 2 ^ 16 → (x :: xs)[i]? = some a → a.address = x.address := by
  have hmem : ∀ a, a ∈ (x :: xs).take (2 ^ 16) ↔ ∃ i < 2 ^ 16, (x :: xs)[i]? = some a := by
    intro a
    rw [List.mem_iff_getElem?]
    simp only [List.getElem?_take, Option.ite_none_right_eq_some]
  constructor
  · rintro ⟨_, hsame⟩ i a hi ha
    exact hsame a ((hmem a).mpr ⟨i, hi, ha⟩) x ((hmem x).mpr ⟨0, by omega, rfl⟩)
  · intro hall
    refine ⟨h, fun a ha b hb => ?_⟩
    obtain ⟨i, hi, ha⟩ := (hmem a).mp ha
    obtain ⟨j, hj, hb⟩ := (hmem b).mp hb
    rw [hall i a hi ha, hall j b hj hb]

/-- With one address, the first loop goes round and round. -/
theorem xadsSane_of_sameAddress (h : SameAddress (x :: xs)) (fuel : ℕ) :
    xadsSane env d fuel (x :: xs) = none := by
  have hall := (sameAddress_iff h.1).mp h
  have hloop : linearLoop env fuel (x :: xs) (x.address, extentBytes env x) = none := by
    refine forWrap_forever (I := fun i s => i < 2 ^ 16 ∧ s.1 = x.address) h.1 ?_ (by omega)
      ⟨by omega, rfl⟩
    rintro i a ⟨p, f⟩ ⟨hi, hp⟩ ha
    refine ⟨(x.address, (f + extentBytes env a) % 2 ^ 64), ?_, Nat.mod_lt _ (by omega), rfl⟩
    rw [linearStep, hall i a hi ha, if_neg (by omega)]
  rw [xadsSane, hloop]

/-- While the first loop runs, no address is below the one before it, in the order of the
counter. -/
theorem le_of_linearLoop_none (h : 2 ^ 16 ≤ (x :: xs).length) {k : ℕ} (hk : k < fuel)
    (hloop : linearLoop env fuel (x :: xs) (x.address, extentBytes env x) = none) {a b : Xad}
    (ha : (x :: xs)[k % 2 ^ 16]? = some a) (hb : (x :: xs)[(k + 1) % 2 ^ 16]? = some b) :
    a.address ≤ b.address := by
  obtain ⟨m, rfl⟩ : ∃ m, fuel = k + (m + 1) := ⟨fuel - k - 1, by omega⟩
  -- `prev_xad_addr` is the address at the position before the counter
  let I : ℕ → ℕ × ℕ → Prop := fun i s => i < 2 ^ 16 ∧
    ∃ c, (x :: xs)[(i + (2 ^ 16 - 1)) % 2 ^ 16]? = some c ∧ s.1 = c.address
  have hstep : ∀ i c (s s' : ℕ × ℕ), I i s → (x :: xs)[i]? = some c →
      some (linearStep env s c) = some (some s') → I ((i + 1) % 2 ^ 16) s' := by
    rintro i c s s' ⟨hi, _⟩ hc hstep
    have hprev : ((i + 1) % 2 ^ 16 + (2 ^ 16 - 1)) % 2 ^ 16 = i := by omega
    refine ⟨Nat.mod_lt _ (by omega), c, by rw [hprev, hc], ?_⟩
    have hstep := Option.some.inj hstep
    unfold linearStep at hstep
    split_ifs at hstep
    rw [← Option.some.inj hstep]
  have hstart : I 1 (x.address, extentBytes env x) := by
    have hzero : (1 + (2 ^ 16 - 1)) % 2 ^ 16 = 0 := by omega
    exact ⟨by omega, x, by rw [hzero]; rfl, rfl⟩
  obtain ⟨s, ⟨_, c, hc, hs⟩, hrest⟩ := forWrap_running h (fun _ _ _ => Option.some_ne_none _)
    hstep (by omega) hstart hloop
  have hprev : ((1 + k) % 2 ^ 16 + (2 ^ 16 - 1)) % 2 ^ 16 = k % 2 ^ 16 := by omega
  rw [hprev, ha] at hc
  obtain rfl := Option.some.inj hc
  rw [Nat.add_comm 1 k, forWrap_succ hb, linearStep] at hrest
  by_contra hlt
  rw [if_pos (by omega)] at hrest
  cases hrest

/-- **With 65536 extents or more, and two addresses among the first 65536**, the check finds a
decrease. -/
theorem xadsSane_of_ge (h : 2 ^ 16 ≤ (x :: xs).length) (hsame : ¬ SameAddress (x :: xs))
    (hfuel : 2 ^ 16 ≤ fuel) : xadsSane env d fuel (x :: xs) = some false := by
  have hloop : linearLoop env fuel (x :: xs) (x.address, extentBytes env x) ≠ none := by
    intro hnone
    refine hsame ((sameAddress_iff h).mpr (fun i a hi ha => ?_))
    have hget : ∀ k < 2 ^ 16, ∃ c, (x :: xs)[k]? = some c := fun k hk =>
      ⟨_, List.getElem?_eq_getElem (by omega)⟩
    have hcyclic := eq_of_cyclic_le (w := 2 ^ 16)
      (fun k => ((x :: xs)[k]?.map Xad.address).getD 0) ?_ i hi
    · rw [ha] at hcyclic
      exact hcyclic
    · intro k hk
      obtain ⟨c, hc⟩ := hget k hk
      obtain ⟨e, he⟩ := hget ((k + 1) % 2 ^ 16) (Nat.mod_lt _ (by omega))
      have hle := le_of_linearLoop_none h (by omega) hnone
        (by rw [Nat.mod_eq_of_lt hk]; exact hc) he
      rw [hc, he]
      exact hle
  rw [xadsSane]
  have hleft : linearLoop env fuel (x :: xs) (x.address, extentBytes env x) = some none :=
    (forWrap_ne_end h (fun _ _ _ => Option.some_ne_none _) (by decide)).resolve_left hloop
  rw [hleft]

/-! ### All lengths -/

theorem diSize_bounds (d : Dinode) : -2 ^ 63 ≤ d.diSize ∧ d.diSize < 2 ^ 63 := by
  have hlt : leBytes d.byte 24 8 < 256 ^ 8 := leBytes_lt _ _ _
  unfold Dinode.diSize toInt64
  split_ifs <;> omega

/-- As an unsigned number, a negative limit is above all sums. -/
theorem passesSize_iff (h : xads.length < 2 ^ 16) : PassesSize env d xads ↔
    d.diSize + env.device.blocksize.bytes < 0 ∨
      ((xads.map (extentBytes env)).sum : ℤ) ≤ d.diSize + env.device.blocksize.bytes := by
  have hsum := sum_extentBytes_le env xads
  have hd := diSize_bounds d
  have hbs : env.device.blocksize.bytes ≤ 2 ^ 12 := by
    rcases env.device.blocksize.bytes_mem with hb | hb | hb | hb <;> omega
  unfold PassesSize sizeLimit
  generalize (xads.map (extentBytes env)).sum = total at hsum ⊢
  omega

/-- `di_size` plus a block is not negative, and does not lie between the sum of the lengths in
32 bits, or on it, and their true sum. -/
def LimitApart (env : Env) (d : Dinode) (xads : List Xad) : Prop :=
  0 ≤ d.diSize + env.device.blocksize.bytes ∧
    ¬ (((xads.map (extentBytes env)).sum : ℤ) ≤ d.diSize + env.device.blocksize.bytes ∧
      d.diSize + env.device.blocksize.bytes < (xads.map (trueBytes env)).sum)

theorem limitApart_iff (h : xads.length < 2 ^ 16) :
    LimitApart env d xads ↔ (PassesSize env d xads → FitsSize env d xads) := by
  rw [passesSize_iff h, LimitApart, FitsSize]
  omega

/-- **The check is total and sound exactly** for vectors of which not all of the first 65536
addresses are the same, if there are so many, and where, if there are fewer and addresses and
ranges are in order, the limit on their size is apart from what the arithmetic can confuse. -/
theorem totalSound_iff (env : Env) (d : Dinode) (x : Xad) (xs : List Xad) :
    TotalSound env d (x :: xs) ↔ ¬ SameAddress (x :: xs) ∧
      ((x :: xs).length < 2 ^ 16 → Linear (x :: xs) → Ascending (x :: xs) →
        LimitApart env d (x :: xs)) := by
  by_cases hlen : (x :: xs).length < 2 ^ 16
  · obtain ⟨r, hr, hiff⟩ := xadsSane_of_lt env d hlen
    constructor
    · rintro ⟨n, r', hr', hsane⟩
      refine ⟨fun hsame => Nat.not_lt.mpr hsame.1 hlen, fun _ hlinear hasc => ?_⟩
      refine (limitApart_iff hlen).mpr (fun hpass => ?_)
      have hrr := hr' (max n ((x :: xs).length + 1)) (Nat.le_max_left _ _)
      rw [hr _ (Nat.le_max_right _ _)] at hrr
      obtain rfl := Option.some.inj hrr
      exact (hsane (hiff.mpr ⟨hlinear, hpass, hasc⟩)).fits
    · rintro ⟨_, hapart⟩
      refine ⟨_, r, hr, fun htrue => ?_⟩
      obtain ⟨hlinear, hpass, hasc⟩ := hiff.mp htrue
      exact ⟨hlinear, (limitApart_iff hlen).mp (hapart hlen hlinear hasc) hpass, hasc⟩
  · constructor
    · rintro ⟨n, r, hr, _⟩
      refine ⟨fun hsame => ?_, fun h => absurd h hlen⟩
      have hn := hr n le_rfl
      rw [xadsSane_of_sameAddress hsame] at hn
      cases hn
    · rintro ⟨hsame, _⟩
      exact ⟨2 ^ 16, false, fun fuel hfuel => xadsSane_of_ge (by omega) hsame hfuel,
        fun h => absurd h Bool.false_ne_true⟩

/-- **An extent of 2^32 bytes of an empty file passes.** -/
theorem not_totalSound_fourGigabytes :
    ¬ TotalSound largeBlocks (.ofBuffer (fun _ => 0) 0) [fourGigabytes] := by
  rintro ⟨n, r, hr, hsane⟩
  have hlen : [fourGigabytes].length < 2 ^ 16 := by decide
  obtain ⟨r', hr', hiff⟩ := xadsSane_of_lt largeBlocks (.ofBuffer (fun _ => 0) 0) hlen
  have hrr := hr (n + 2) (Nat.le_add_right _ _)
  rw [hr' (n + 2) (Nat.le_add_left _ _)] at hrr
  obtain rfl := Option.some.inj hrr
  have htrue : r' = true := hiff.mpr
    ⟨List.pairwise_singleton _ _, by decide, List.pairwise_singleton _ _⟩
  exact absurd (hsane htrue).fits (by decide)

end FileInode

end Jfsrec
