import Mathlib.Algebra.Group.Int.Defs
import Mathlib.Algebra.Group.Nat.Defs
import Mathlib.Data.Nat.Notation
import Mathlib.Data.Int.Notation

/-!
# The device

`device.cpp`.  A device is a file or a block device holding `stSize` readable
bytes.  `getSizeBytes` is its size as the program takes it (for a regular file,
rounded down to whole kilobytes), and `readBytes` copies bytes into a buffer
that keeps what it held before wherever the read comes up short: the source
reports a short `fread` on `cerr` and goes on.

Memory the source reads before writing it is part of the `Env`: every theorem
about a run is about every content of such memory.
-/

namespace Jfsrec

/-- Bytes of a memory block, by position. -/
abbrev Buffer := ℕ → UInt8

inductive Blocksize
  | b512
  | b1024
  | b2048
  | b4096
deriving DecidableEq, Repr

def Blocksize.bytes : Blocksize → ℕ
  | b512 => 512
  | b1024 => 1024
  | b2048 => 2048
  | b4096 => 4096

theorem Blocksize.bytes_mem (b : Blocksize) :
    b.bytes = 512 ∨ b.bytes = 1024 ∨ b.bytes = 2048 ∨ b.bytes = 4096 := by
  cases b <;> simp [bytes]

theorem Blocksize.bytes_pos (b : Blocksize) : 0 < b.bytes := by
  rcases b.bytes_mem with h | h | h | h <;> omega

/-- How a run can end early: an `invalid_read_exception`, a call of `exit`, or a
loop that never ends. -/
inductive Fault
  | invalidRead (what : String)
  | exit (code : ℕ)
  | diverge
deriving DecidableEq, Repr

/-! ### Machine integers -/

def wrap64 (n : ℕ) : ℕ := n % 2 ^ 64

def sub64 (a b : ℕ) : ℕ := (a + (2 ^ 64 - b % 2 ^ 64)) % 2 ^ 64

/-- A `uint64_t` passed where an `int64_t` is expected. -/
def toInt64 (n : ℕ) : ℤ := if n < 2 ^ 63 then (n : ℤ) else (n : ℤ) - 2 ^ 64

theorem wrap64_of_lt {n : ℕ} (h : n < 2 ^ 64) : wrap64 n = n := Nat.mod_eq_of_lt h

theorem sub64_of_le {a b : ℕ} (h : b ≤ a) (ha : a < 2 ^ 64) : sub64 a b = a - b := by
  rw [sub64, Nat.mod_eq_of_lt (by omega : b < 2 ^ 64)]
  omega

theorem sub64_of_lt {a b : ℕ} (h : a < b) (hb : b < 2 ^ 64) : sub64 a b = a + 2 ^ 64 - b := by
  rw [sub64, Nat.mod_eq_of_lt hb]
  omega

theorem toInt64_of_lt {n : ℕ} (h : n < 2 ^ 63) : toInt64 n = n := if_pos h

/-! ### The device -/

structure Device where
  blocksize : Blocksize
  /-- `S_ISBLK(st_mode)` -/
  isBlk : Bool
  /-- how many bytes can be read -/
  stSize : ℕ
  data : ℕ → UInt8
  stSize_lt : stSize < 2 ^ 63

namespace Device

def getSizeBytes (dev : Device) : ℕ :=
  if dev.isBlk then dev.stSize / 512 * 512 else dev.stSize / 1024 * 1024

abbrev fssize (dev : Device) : ℕ := dev.getSizeBytes

/-- `fread` at a position: only the bytes that are there reach the buffer. -/
def fread (dev : Device) (pos count : ℕ) (buf : Buffer) : Buffer := fun k =>
  if k < count ∧ pos + k < dev.stSize then dev.data (pos + k) else buf k

def readBytes (dev : Device) (diskOffset : ℤ) (diskCount : ℕ) (dataBuffer : Buffer) :
    Except Fault Buffer :=
  if diskOffset > dev.fssize then
    .error (.invalidRead "Requested read beyond file system size.")
  else if diskOffset < 0 then
    -- fseeko64 refuses a negative position
    .error (.invalidRead "unable to seek")
  else if diskCount = 0 then
    .error (.invalidRead "could not read 0 bytes")
  else
    .ok (dev.fread diskOffset.toNat diskCount dataBuffer)

variable (dev : Device)

theorem getSizeBytes_le : dev.getSizeBytes ≤ dev.stSize := by
  unfold getSizeBytes
  split <;> omega

theorem getSizeBytes_lt : dev.getSizeBytes < 2 ^ 63 :=
  Nat.lt_of_le_of_lt dev.getSizeBytes_le dev.stSize_lt

/-- The size is a whole number of inode slots. -/
theorem getSizeBytes_eq : dev.getSizeBytes / 512 * 512 = dev.getSizeBytes := by
  unfold getSizeBytes
  split <;> omega

variable {dev}

theorem readBytes_beyond {off : ℤ} {n : ℕ} {buf : Buffer} (h : off > dev.fssize) :
    dev.readBytes off n buf
      = .error (.invalidRead "Requested read beyond file system size.") := if_pos h

theorem readBytes_within {off n : ℕ} {buf : Buffer} (ho : off ≤ dev.fssize) (hn : 0 < n) :
    dev.readBytes off n buf = .ok (dev.fread off n buf) := by
  rw [readBytes, if_neg (by omega), if_neg (by omega), if_neg (by omega)]
  rfl

theorem fread_of_lt {pos n k : ℕ} {buf : Buffer} (hk : k < n) (hp : pos + k < dev.stSize) :
    dev.fread pos n buf k = dev.data (pos + k) := if_pos ⟨hk, hp⟩

end Device

/-- A device, and what memory holds that the program reads before writing it:
fresh allocations and uninitialised structures, and the variable `bo` of
`restore` and `load_from_positions`. -/
structure Env where
  device : Device
  fresh : Buffer
  bo : ℕ
  bo_lt : bo < 2 ^ 64

def Device.zeroed (dev : Device) : Env := ⟨dev, fun _ => 0, 0, by decide⟩

theorem disk_lt : 2048 < 2 ^ 63 := by decide

/-- A disk of four blocks with the given bytes, and zeros elsewhere. -/
def Device.disk (bytes : List (ℕ × UInt8)) : Device where
  blocksize := .b512
  isBlk := true
  stSize := 2048
  data := fun k => (bytes.lookup k).getD 0
  stSize_lt := disk_lt

end Jfsrec
