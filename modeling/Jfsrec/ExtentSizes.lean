import Jfsrec.Extents

/-!
# How much of an extent is copied

The program computes the length of an extent in bytes, `lengthXAD(x) *
device.get_blocksize()`, in 32 bits, wherever it needs it: as the bound of the
copy, and in `filesize_from_xad_vector`.  An extent of 2^24 - 1 blocks of 4096
bytes has 36 bits.  The positions have 64 bits, which is enough.

`copiedWhole_iff` says that extents below 2^32 bytes are copied whole, and no others.
-/

namespace Jfsrec

open Lib

namespace FileInode

def filesizeFromXadVector (env : Env) (xads : List Xad) : ℕ :=
  xads.foldl (fun filesize x => (filesize + extentBytes env x) % 2 ^ 64) 0

def trueBytes (env : Env) (x : Xad) : ℕ := x.len * env.device.blocksize.bytes

/-- The copy puts `len * bs` bytes from `offset * bs` up to `(offset + len) * bs`. -/
structure CopiedWhole (env : Env) (x : Xad) (writes : List Patch) : Prop where
  consecutive : Patch.Consecutive writes (x.offset * env.device.blocksize.bytes)
    ((x.offset + x.len) * env.device.blocksize.bytes)
  total : (writes.map (fun w => w.data.length)).sum = trueBytes env x

/-- The products that the copy computes are in the range of their types, `uint32_t` and
`int64_t`, with the bytes read so far added. -/
structure ProductsFit (env : Env) (x : Xad) : Prop where
  length : trueBytes env x < 2 ^ 32
  device : devicePos env x (trueBytes env x) < 2 ^ 63
  file : filePos env x (trueBytes env x) < 2 ^ 63

variable {env : Env} {x : Xad} {xads : List Xad} {fuel r : ℕ} {buffer : Buffer}

theorem extentBytes_le (env : Env) (x : Xad) : extentBytes env x ≤ trueBytes env x :=
  Nat.mod_le _ _

theorem extentBytes_eq_iff : extentBytes env x = trueBytes env x ↔ trueBytes env x < 2 ^ 32 := by
  refine ⟨fun h => ?_, Nat.mod_eq_of_lt⟩
  rw [← h]
  exact Nat.mod_lt _ (Nat.two_pow_pos 32)

/-! ### The copy -/

/-- **The loop fills what it takes the extent to be**, if no read fails. -/
theorem copyPieces_consecutive (hr : r ≤ extentBytes env x)
    (hfuel : extentBytes env x < r + fuel * buffsize)
    (hret : (copyPieces env x fuel r buffer).outcome = .ret ()) :
    Patch.Consecutive (copyPieces env x fuel r buffer).writes (filePos env x r)
      (filePos env x (extentBytes env x)) := by
  induction fuel generalizing r buffer with
  | zero => omega
  | succ fuel ih =>
    by_cases hlt : r < extentBytes env x
    · by_cases hread : devicePos env x r ≤ env.device.fssize
      · rw [copyPieces_of_within hlt hread, ← copyPieces_next hlt] at hret ⊢
        have hle := pieceBytes_le hlt
        refine ⟨rfl, ?_⟩
        rw [length_piece]
        have hnext : filePos env x r + pieceBytes (extentBytes env x) r
            = filePos env x (r + pieceBytes (extentBytes env x) r) := Nat.add_assoc _ _ _
        rw [hnext]
        by_cases hend : r + pieceBytes (extentBytes env x) r = extentBytes env x
        · rw [hend, copyPieces_of_le (Nat.le_refl _)]
          rfl
        · have hfull : pieceBytes (extentBytes env x) r = buffsize := by
            unfold pieceBytes at hend ⊢
            split at hend
            · rename_i h
              rw [if_pos h]
            · omega
          rw [Nat.succ_mul] at hfuel
          exact ih hle (by omega) hret
      · rw [copyPieces_of_beyond hlt hread] at hret
        cases hret
    · rw [copyPieces_of_le (by omega)]
      exact congrArg (filePos env x) (by omega)

theorem writeExtentToFile_consecutive
    (hret : (writeExtentToFile env x buffer).outcome = .ret ()) :
    Patch.Consecutive (writeExtentToFile env x buffer).writes
      (x.offset * env.device.blocksize.bytes)
      (x.offset * env.device.blocksize.bytes + extentBytes env x) := by
  have hcopy : (copyPieces env x (pieceFuel env x) 0 buffer).outcome = .ret () := by
    rcases copyPieces_outcome env x (pieceFuel env x) 0 buffer with h | ⟨what, h⟩
    · exact h
    · unfold writeExtentToFile at hret
      dsimp only at hret
      rw [h] at hret
      cases hret
  exact copyPieces_consecutive (Nat.zero_le _) pieceFuel_enough hcopy

theorem copiedWhole_iff_short (hret : (writeExtentToFile env x buffer).outcome = .ret ()) :
    CopiedWhole env x (writeExtentToFile env x buffer).writes ↔ trueBytes env x < 2 ^ 32 := by
  have hcons := writeExtentToFile_consecutive hret
  have hsum := hcons.sum_length
  rw [← extentBytes_eq_iff]
  refine ⟨fun h => ?_, fun h => ⟨?_, ?_⟩⟩
  · have htotal := h.total
    omega
  · rw [Nat.add_mul]
    rw [h] at hcons
    exact hcons
  · omega

theorem productsFit_iff : ProductsFit env x ↔ trueBytes env x < 2 ^ 32 := by
  have hbs : env.device.blocksize.bytes ≤ 2 ^ 12 := by
    rcases env.device.blocksize.bytes_mem with h | h | h | h <;> omega
  have haddr : x.address * env.device.blocksize.bytes ≤ 2 ^ 40 * 2 ^ 12 :=
    Nat.mul_le_mul (Nat.le_of_lt x.address_lt) hbs
  have hoff : x.offset * env.device.blocksize.bytes ≤ 2 ^ 40 * 2 ^ 12 :=
    Nat.mul_le_mul (Nat.le_of_lt x.offset_lt) hbs
  refine ⟨ProductsFit.length, fun h => ⟨h, ?_, ?_⟩⟩
  · unfold devicePos
    omega
  · unfold filePos
    omega

/-! ### The sum -/

theorem foldl_filesize (a : ℕ) :
    xads.foldl (fun filesize x => (filesize + extentBytes env x) % 2 ^ 64) (a % 2 ^ 64)
      = (a + (xads.map (extentBytes env)).sum) % 2 ^ 64 := by
  induction xads generalizing a with
  | nil => rfl
  | cons x xs ih =>
    rw [List.foldl_cons, Nat.mod_add_mod, ih, List.map_cons, List.sum_cons, Nat.add_assoc]

theorem filesizeFromXadVector_eq (env : Env) (xads : List Xad) :
    filesizeFromXadVector env xads = (xads.map (extentBytes env)).sum % 2 ^ 64 := by
  have h := @foldl_filesize env xads 0
  rwa [Nat.zero_add] at h

theorem sum_extentBytes (env : Env) (xads : List Xad) :
    (xads.map (extentBytes env)).sum ≤ (xads.map (trueBytes env)).sum ∧
      ((xads.map (extentBytes env)).sum = (xads.map (trueBytes env)).sum ↔
        ∀ x ∈ xads, trueBytes env x < 2 ^ 32) := by
  induction xads with
  | nil => simp
  | cons x xs ih =>
    obtain ⟨hle, hiff⟩ := ih
    have hx := extentBytes_le env x
    rw [List.map_cons, List.map_cons, List.sum_cons, List.sum_cons, List.forall_mem_cons, ← hiff,
      ← extentBytes_eq_iff]
    omega

theorem filesizeFromXadVector_eq_iff :
    filesizeFromXadVector env xads = (xads.map (trueBytes env)).sum ↔
      (∀ x ∈ xads, trueBytes env x < 2 ^ 32) ∧ (xads.map (trueBytes env)).sum < 2 ^ 64 := by
  obtain ⟨hle, hiff⟩ := sum_extentBytes env xads
  rw [filesizeFromXadVector_eq, ← hiff]
  omega

/-! ### Both -/

/-- **Extents below 2^32 bytes are handled exactly, and no others**: they are copied whole
if no read fails, none of the products leaves its type, and the sum over any extents is
exact if it has 64 bits itself.  The loop ends by itself. -/
theorem copiedWhole_iff (env : Env) (x : Xad) :
    (∀ extra buffer, copyPieces env x (pieceFuel env x + extra) 0 buffer
      = copyPieces env x (pieceFuel env x) 0 buffer) ∧
    (∀ buffer, (writeExtentToFile env x buffer).outcome = .ret () →
      (CopiedWhole env x (writeExtentToFile env x buffer).writes ↔ trueBytes env x < 2 ^ 32)) ∧
    (ProductsFit env x ↔ trueBytes env x < 2 ^ 32) ∧
    ∀ xads, filesizeFromXadVector env xads = (xads.map (trueBytes env)).sum ↔
      (∀ y ∈ xads, trueBytes env y < 2 ^ 32) ∧ (xads.map (trueBytes env)).sum < 2 ^ 64 :=
  ⟨fun extra _ => copyPieces_fuel pieceFuel_enough extra, fun _ hret => copiedWhole_iff_short hret,
    productsFit_iff, fun _ => filesizeFromXadVector_eq_iff⟩

theorem copiedWhole_oneBlock : CopiedWhole (Device.disk []).zeroed (.of 0 1 2)
    (writeExtentToFile (Device.disk []).zeroed (.of 0 1 2) (fun _ => 0)).writes :=
  ((copiedWhole_iff (Device.disk []).zeroed (.of 0 1 2)).2.1 _ (by decide +kernel)).mpr (by decide)

/-- A device with blocks of 4096 bytes. -/
def largeBlocks : Env := { Device.disk [] with blocksize := .b4096 }.zeroed

/-- An extent of 4 gigabytes there. -/
def fourGigabytes : Xad := .of 0 (2 ^ 20) 0

/-- **Of 4 gigabytes nothing is copied**, and they count as nothing. -/
theorem not_copiedWhole_fourGigabytes :
    (writeExtentToFile largeBlocks fourGigabytes (fun _ => 0)).outcome = .ret () ∧
      ¬ CopiedWhole largeBlocks fourGigabytes
        (writeExtentToFile largeBlocks fourGigabytes (fun _ => 0)).writes ∧
      filesizeFromXadVector largeBlocks [fourGigabytes] = 0 := by
  have hret : (writeExtentToFile largeBlocks fourGigabytes (fun _ => 0)).outcome = .ret () := by
    decide +kernel
  refine ⟨hret, fun h => ?_, by decide⟩
  exact absurd ((copiedWhole_iff_short hret).mp h) (by decide)

end FileInode

end Jfsrec
