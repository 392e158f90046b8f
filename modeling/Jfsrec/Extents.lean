import Jfsrec.Xtree
import Jfsrec.Lib.SparseFile

/-!
# Copying an extent

`write_extent_to_file` of `fileinode.cpp` copies an extent to the output file in pieces of
64 kilobytes.  Each piece is read into a buffer that all files share, and the whole of it is
written, whether or not the read has filled it: `read_bytes` reports a short read on `cerr`
and returns.

`noLeak_iff` says when no file can get bytes that the buffer holds of another one.
-/

namespace Jfsrec

open Lib

structure Copied where
  outcome : Outcome Exn Unit
  buffer : Buffer
  writes : List Patch

def Copied.after (w : Patch) (c : Copied) : Copied := { c with writes := w :: c.writes }

namespace FileInode

def buffsize : ℕ := 2 ^ 16

/-- `lengthXAD(x)*device.get_blocksize()` on `uint32_t`. -/
def extentBytes (env : Env) (x : Xad) : ℕ := x.len * env.device.blocksize.bytes % 2 ^ 32

def pieceBytes (total bytesRead : ℕ) : ℕ :=
  if total - bytesRead > buffsize then buffsize else total - bytesRead

def devicePos (env : Env) (x : Xad) (bytesRead : ℕ) : ℕ :=
  x.address * env.device.blocksize.bytes + bytesRead

def filePos (env : Env) (x : Xad) (bytesRead : ℕ) : ℕ :=
  x.offset * env.device.blocksize.bytes + bytesRead

def copyPieces (env : Env) (x : Xad) : ℕ → ℕ → Buffer → Copied
  | 0, _, buffer => ⟨.ret (), buffer, []⟩
  | fuel + 1, bytesRead, buffer =>
      if extentBytes env x > bytesRead then
        let count := pieceBytes (extentBytes env x) bytesRead
        match env.readBytes (devicePos env x bytesRead) count buffer with
        | .ret buffer =>
            (copyPieces env x fuel (bytesRead + count) buffer).after
              ⟨filePos env x bytesRead, (List.range count).map buffer⟩
        | .raise e => ⟨.raise e, buffer, []⟩
        | .terminate => ⟨.terminate, buffer, []⟩
      else ⟨.ret (), buffer, []⟩

/-- Each turn but the last takes a full buffer. -/
def pieceFuel (env : Env) (x : Xad) : ℕ := extentBytes env x / buffsize + 1

/-- `write_extent_to_file`, which lists the one exception that `read_bytes` raises. -/
def writeExtentToFile (env : Env) (x : Xad) (buffer : Buffer) : Copied :=
  let c := copyPieces env x (pieceFuel env x) 0 buffer
  { c with outcome := c.outcome.spec Exn.isInvalidRead }

variable {env : Env} {x : Xad} {fuel r : ℕ} {buffer : Buffer}

/-! ### One piece -/

theorem pieceBytes_pos {total : ℕ} (h : r < total) : 0 < pieceBytes total r := by
  unfold pieceBytes buffsize
  split <;> omega

theorem pieceBytes_le {total : ℕ} (h : r < total) : r + pieceBytes total r ≤ total := by
  unfold pieceBytes
  split <;> omega

theorem pieceBytes_le_buffsize (total r : ℕ) : pieceBytes total r ≤ buffsize := by
  unfold pieceBytes
  split <;> omega

theorem readBytes_piece {p count : ℕ} (hcount : 0 < count) :
    env.readBytes p count buffer =
      if p ≤ env.device.fssize then .ret (env.device.fread p count buffer)
      else .raise (.invalidRead "Requested read beyond file system size.") := by
  rw [Env.readBytes]
  by_cases h : p ≤ env.device.fssize
  · rw [Device.readBytes_within h hcount, if_pos h]
  · rw [Device.readBytes_beyond (by omega), if_neg h]

def piece (env : Env) (x : Xad) (r : ℕ) (buffer : Buffer) : Patch :=
  ⟨filePos env x r, (List.range (pieceBytes (extentBytes env x) r)).map
    (env.device.fread (devicePos env x r) (pieceBytes (extentBytes env x) r) buffer)⟩

theorem copyPieces_of_le (h : extentBytes env x ≤ r) :
    copyPieces env x fuel r buffer = ⟨.ret (), buffer, []⟩ := by
  cases fuel with
  | zero => rfl
  | succ fuel => rw [copyPieces, if_neg (by omega)]

theorem copyPieces_next (h : r < extentBytes env x) :
    copyPieces env x fuel (r + pieceBytes (extentBytes env x) r) buffer =
      copyPieces env x fuel (r + buffsize) buffer := by
  by_cases hfull : extentBytes env x - r > buffsize
  · rw [pieceBytes, if_pos hfull]
  · rw [pieceBytes, if_neg hfull, copyPieces_of_le (by omega), copyPieces_of_le (by omega)]

theorem copyPieces_of_within (h : r < extentBytes env x)
    (hread : devicePos env x r ≤ env.device.fssize) :
    copyPieces env x (fuel + 1) r buffer =
      (copyPieces env x fuel (r + buffsize)
        (env.device.fread (devicePos env x r) (pieceBytes (extentBytes env x) r) buffer)).after
        (piece env x r buffer) := by
  rw [copyPieces, if_pos h]
  dsimp only
  rw [readBytes_piece (pieceBytes_pos h), if_pos hread]
  dsimp only
  rw [copyPieces_next h]
  rfl

theorem copyPieces_of_beyond (h : r < extentBytes env x)
    (hread : ¬ devicePos env x r ≤ env.device.fssize) :
    copyPieces env x (fuel + 1) r buffer =
      ⟨.raise (.invalidRead "Requested read beyond file system size."), buffer, []⟩ := by
  rw [copyPieces, if_pos h]
  dsimp only
  rw [readBytes_piece (pieceBytes_pos h), if_neg hread]

theorem copyPieces_fuel (h : extentBytes env x < r + fuel * buffsize) (extra : ℕ) :
    copyPieces env x (fuel + extra) r buffer = copyPieces env x fuel r buffer := by
  induction fuel generalizing r buffer with
  | zero =>
    rw [copyPieces_of_le (by omega), copyPieces_of_le (by omega)]
  | succ fuel ih =>
    by_cases hr : r < extentBytes env x
    · rw [Nat.add_right_comm]
      by_cases hread : devicePos env x r ≤ env.device.fssize
      · rw [copyPieces_of_within hr hread, copyPieces_of_within hr hread]
        rw [Nat.succ_mul] at h
        rw [ih (by omega)]
      · rw [copyPieces_of_beyond hr hread, copyPieces_of_beyond hr hread]
    · rw [copyPieces_of_le (by omega), copyPieces_of_le (by omega)]

theorem pieceFuel_enough : extentBytes env x < 0 + pieceFuel env x * buffsize := by
  unfold pieceFuel buffsize
  omega

/-! ### All pieces -/

/-- The loop returns, or it raises what a read has raised. -/
theorem copyPieces_outcome (env : Env) (x : Xad) (fuel r : ℕ) (buffer : Buffer) :
    (copyPieces env x fuel r buffer).outcome = .ret () ∨
      ∃ what, (copyPieces env x fuel r buffer).outcome = .raise (.invalidRead what) := by
  induction fuel generalizing r buffer with
  | zero => exact Or.inl rfl
  | succ fuel ih =>
    by_cases hr : r < extentBytes env x
    · by_cases hread : devicePos env x r ≤ env.device.fssize
      · rw [copyPieces_of_within hr hread]
        exact ih _ _
      · rw [copyPieces_of_beyond hr hread]
        exact Or.inr ⟨_, rfl⟩
    · rw [copyPieces_of_le (by omega)]
      exact Or.inl rfl

theorem writeExtentToFile_outcome (env : Env) (x : Xad) (buffer : Buffer) :
    (writeExtentToFile env x buffer).outcome = .ret () ∨
      ∃ what, (writeExtentToFile env x buffer).outcome = .raise (.invalidRead what) := by
  unfold writeExtentToFile
  dsimp only
  rcases copyPieces_outcome env x (pieceFuel env x) 0 buffer with h | ⟨what, h⟩
  · rw [h]
    exact Or.inl rfl
  · rw [h]
    exact Or.inr ⟨what, rfl⟩

theorem add_succ_mul (r i : ℕ) : r + (i + 1) * buffsize = r + buffsize + i * buffsize := by
  rw [Nat.succ_mul, Nat.add_comm (i * buffsize), ← Nat.add_assoc]

/-- Every write is a piece that has been read. -/
theorem exists_piece_of_mem {w : Patch} (h : w ∈ (copyPieces env x fuel r buffer).writes) :
    ∃ i buffer', r + i * buffsize < extentBytes env x ∧
      devicePos env x (r + i * buffsize) ≤ env.device.fssize ∧
      w = piece env x (r + i * buffsize) buffer' := by
  induction fuel generalizing r buffer with
  | zero => cases h
  | succ fuel ih =>
    by_cases hr : r < extentBytes env x
    · by_cases hread : devicePos env x r ≤ env.device.fssize
      · rw [copyPieces_of_within hr hread] at h
        rcases List.mem_cons.mp h with rfl | h
        · refine ⟨0, buffer, ?_⟩
          rw [Nat.zero_mul, Nat.add_zero]
          exact ⟨hr, hread, rfl⟩
        · obtain ⟨i, buffer', hi⟩ := ih h
          refine ⟨i + 1, buffer', ?_⟩
          rwa [add_succ_mul]
      · rw [copyPieces_of_beyond hr hread] at h
        cases h
    · rw [copyPieces_of_le (by omega)] at h
      cases h

/-- Every piece that can be read is written. -/
theorem exists_piece_mem {fuel i : ℕ} (hfuel : extentBytes env x < r + fuel * buffsize)
    (hi : r + i * buffsize < extentBytes env x)
    (hread : devicePos env x (r + i * buffsize) ≤ env.device.fssize) (buffer : Buffer) :
    ∃ buffer', piece env x (r + i * buffsize) buffer' ∈
      (copyPieces env x fuel r buffer).writes := by
  induction fuel generalizing r buffer i with
  | zero => omega
  | succ fuel ih =>
    have hr : r < extentBytes env x := by omega
    have hfirst : devicePos env x r ≤ env.device.fssize := by
      unfold devicePos at hread ⊢
      omega
    rw [copyPieces_of_within hr hfirst]
    cases i with
    | zero =>
      refine ⟨buffer, List.mem_cons.mpr (Or.inl ?_)⟩
      rw [Nat.zero_mul, Nat.add_zero]
    | succ i =>
      rw [add_succ_mul] at hi hread ⊢
      rw [Nat.succ_mul] at hfuel
      obtain ⟨buffer', h⟩ := ih (by omega) hi hread _
      exact ⟨buffer', List.mem_cons_of_mem _ h⟩

/-! ### What the buffer held before -/

/-- The bytes of a write are those that the device holds at the same places of the extent. -/
def FromDevice (env : Env) (x : Xad) (w : Patch) : Prop :=
  ∀ k < w.data.length, ∃ r < extentBytes env x, filePos env x r = w.pos + k ∧
    devicePos env x r < env.device.stSize ∧
    w.data[k]? = some (env.device.data (devicePos env x r))

/-- What a file gets does not depend on what the buffer held: all of it comes from the device. -/
structure NoLeak (env : Env) (x : Xad) : Prop where
  agree : ∀ b b', (writeExtentToFile env x b).outcome = .ret () →
    (writeExtentToFile env x b').outcome = .ret () →
    (writeExtentToFile env x b).writes = (writeExtentToFile env x b').writes
  fromDevice : ∀ b, ∀ w ∈ (writeExtentToFile env x b).writes, FromDevice env x w
  raises : ∀ b, (writeExtentToFile env x b).outcome = .ret () ∨
    ∃ what, (writeExtentToFile env x b).outcome = .raise (.invalidRead what)

/-- A piece that begins in the device, or at its end, ends there. -/
def PiecesFit (env : Env) (x : Xad) : Prop :=
  ∀ r, r % buffsize = 0 → r < extentBytes env x → devicePos env x r ≤ env.device.fssize →
    devicePos env x r + pieceBytes (extentBytes env x) r ≤ env.device.stSize

theorem PiecesFit.mul (h : PiecesFit env x) {i : ℕ} (hi : 0 + i * buffsize < extentBytes env x)
    (hread : devicePos env x (0 + i * buffsize) ≤ env.device.fssize) :
    devicePos env x (0 + i * buffsize) + pieceBytes (extentBytes env x) (0 + i * buffsize)
      ≤ env.device.stSize :=
  h _ (by rw [Nat.zero_add, Nat.mul_mod_left]) hi hread

theorem length_piece (r : ℕ) (buffer : Buffer) :
    (piece env x r buffer).data.length = pieceBytes (extentBytes env x) r := by
  rw [piece, List.length_map, List.length_range]

theorem piece_fromDevice (hr : r < extentBytes env x)
    (h : devicePos env x r + pieceBytes (extentBytes env x) r ≤ env.device.stSize) :
    FromDevice env x (piece env x r buffer) := by
  intro k hk
  rw [length_piece] at hk
  have hpos : devicePos env x (r + k) = devicePos env x r + k := (Nat.add_assoc _ _ _).symm
  have hle := pieceBytes_le hr
  refine ⟨r + k, by omega, (Nat.add_assoc _ _ _).symm, by omega, ?_⟩
  rw [piece, List.getElem?_map, List.getElem?_range hk, Option.map_some,
    Device.fread_of_lt hk (by omega), hpos]

theorem piece_congr (h : devicePos env x r + pieceBytes (extentBytes env x) r ≤ env.device.stSize)
    (b b' : Buffer) : piece env x r b = piece env x r b' := by
  rw [piece, piece]
  congr 1
  apply List.map_congr_left
  intro k hk
  have hk' := List.mem_range.mp hk
  rw [Device.fread_of_lt hk' (by omega), Device.fread_of_lt hk' (by omega)]

theorem copyPieces_writes_congr
    (h : ∀ i, r + i * buffsize < extentBytes env x →
      devicePos env x (r + i * buffsize) ≤ env.device.fssize →
      devicePos env x (r + i * buffsize) + pieceBytes (extentBytes env x) (r + i * buffsize)
        ≤ env.device.stSize) (b b' : Buffer) :
    (copyPieces env x fuel r b).writes = (copyPieces env x fuel r b').writes := by
  induction fuel generalizing r b b' with
  | zero => rfl
  | succ fuel ih =>
    by_cases hr : r < extentBytes env x
    · by_cases hread : devicePos env x r ≤ env.device.fssize
      · rw [copyPieces_of_within hr hread, copyPieces_of_within hr hread]
        have hfit := h 0 (by omega) (by rwa [Nat.zero_mul, Nat.add_zero])
        rw [Nat.zero_mul, Nat.add_zero] at hfit
        show _ :: _ = _ :: _
        rw [piece_congr hfit b b']
        congr 1
        apply ih
        intro i
        have hi := h (i + 1)
        rwa [add_succ_mul] at hi
      · rw [copyPieces_of_beyond hr hread, copyPieces_of_beyond hr hread]
    · rw [copyPieces_of_le (by omega), copyPieces_of_le (by omega)]

theorem writeExtentToFile_fromDevice (h : PiecesFit env x) {w : Patch}
    (hw : w ∈ (writeExtentToFile env x buffer).writes) : FromDevice env x w := by
  obtain ⟨i, b, hi, hread, rfl⟩ := exists_piece_of_mem hw
  exact piece_fromDevice hi (h.mul hi hread)

/-- **No file gets bytes of another one exactly if no piece of the extent that begins in the
device, or at its end, runs past the end.** -/
theorem noLeak_iff (env : Env) (x : Xad) : NoLeak env x ↔ PiecesFit env x := by
  constructor
  · intro h r hmod hr hread
    by_contra hfit
    obtain ⟨i, hi⟩ := Nat.dvd_of_mod_eq_zero hmod
    obtain rfl : r = 0 + i * buffsize := by rw [hi, Nat.zero_add, Nat.mul_comm]
    obtain ⟨b, hmem⟩ := exists_piece_mem pieceFuel_enough hr hread (fun _ => 0)
    -- the byte at the end of the device
    have hle : env.device.fssize ≤ env.device.stSize := env.device.getSizeBytes_le
    obtain ⟨r', _, hpos, hdev, _⟩ := h.fromDevice _ _ hmem
      (env.device.stSize - devicePos env x (0 + i * buffsize)) (by rw [length_piece]; omega)
    change filePos env x r' = filePos env x (0 + i * buffsize) + _ at hpos
    unfold filePos devicePos at *
    omega
  · intro h
    refine ⟨fun b b' _ _ => ?_, fun b w hw => ?_, fun b => ?_⟩
    · exact copyPieces_writes_congr (fun i hi hread => h.mul hi hread) b b'
    · exact writeExtentToFile_fromDevice h hw
    · exact writeExtentToFile_outcome env x b

/-- An extent of one block, which begins where a device of four blocks ends. -/
def atEnd : Xad := .of 0 1 4

/-- **An extent that begins at the end of the device** gives the file what the buffer held. -/
theorem not_noLeak_atEnd : ¬ NoLeak (Device.disk []).zeroed atEnd := by
  intro h
  have hw := h.agree (fun _ => 0) (fun _ => 1) (by decide +kernel) (by decide +kernel)
  exact absurd hw (by decide +kernel)

end FileInode

end Jfsrec
