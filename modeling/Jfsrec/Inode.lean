import Jfsrec.Device
import Mathlib.Data.Prod.Lex

/-!
# Inodes

`jfs_dinode.h` lays out the 512 bytes of an on-disk inode; `Dinode` is such a
block and its fields are read where the structure puts them, low byte first.
`Inode` is the object `inode.h` builds over one, and `createIfSane` and
`readFromDisk` are the two functions of `inodefactory.cpp` that build it: the
first only where the block looks like an inode, the second anywhere.
`readFromDisk_of_slot` says they agree on the slots the first accepts.
-/

namespace Jfsrec

/-! ### On-disk inodes -/

def leBytes (b : Buffer) (off : ℕ) : ℕ → ℕ
  | 0 => 0
  | n + 1 => (b off).toNat + 256 * leBytes b (off + 1) n

structure Timestruc where
  tvSec : ℕ
  tvNsec : ℕ
deriving DecidableEq, Repr

def Timestruc.lt (t1 t2 : Timestruc) : Bool :=
  if t1.tvSec = t2.tvSec then t1.tvNsec < t2.tvNsec else t1.tvSec < t2.tvSec

/-- The times in lexicographic order. -/
def Timestruc.key (t : Timestruc) : ℕ ×ₗ ℕ := toLex (t.tvSec, t.tvNsec)

theorem Timestruc.lt_iff (t1 t2 : Timestruc) : t1.lt t2 = true ↔ t1.key < t2.key := by
  unfold lt key
  rw [Prod.Lex.toLex_lt_toLex]
  split <;> simp <;> omega

/-- `struct dinode`: the 512 bytes of an on-disk inode. -/
structure Dinode where
  byte : Buffer

namespace Dinode

/-- The block at position `pos` of a buffer, as `(struct dinode*)&buf[pos]`. -/
def ofBuffer (buf : Buffer) (pos : ℕ) : Dinode :=
  ⟨fun k => if k < 512 then buf (pos + k) else 0⟩

variable (d : Dinode)

def diInostamp : ℕ := leBytes d.byte 0 4
def diFileset : ℕ := leBytes d.byte 4 4
def diNumber : ℕ := leBytes d.byte 8 4
def diIxpxdLen : ℕ := leBytes d.byte 16 3
def diNlink : ℕ := leBytes d.byte 40 4
def diMode : ℕ := leBytes d.byte 52 4
def diOtime : Timestruc := ⟨leBytes d.byte 80 4, leBytes d.byte 84 4⟩
/-- `((dtroot_t*) &di_btroot)->header.idotdot` -/
def idotdot : ℕ := leBytes d.byte 244 4

end Dinode

theorem Dinode.ofBuffer_congr {b b' : Buffer} {p p' : ℕ}
    (h : ∀ k, k < 512 → b (p + k) = b' (p' + k)) : ofBuffer b p = ofBuffer b' p' := by
  simp only [ofBuffer, Dinode.mk.injEq]
  funext k
  split
  · rename_i hk; exact h k hk
  · rfl

def IFMT : ℕ := 0xF000
def IFDIR : ℕ := 0x4000
def IFREG : ℕ := 0x8000
def IFLNK : ℕ := 0xA000
def IFBLK : ℕ := 0x6000
def IFCHR : ℕ := 0x2000
def IFFIFO : ℕ := 0x1000
def IFSOCK : ℕ := 0xC000

/-! ### Inode objects -/

/-- The class of an object: `UnallocatedInode`, `FileInode`, `DirInode`,
`SymlinkInode` or `SpecialInode`. -/
inductive Kind
  | unallocated
  | file
  | dir
  | symlink
  | special
deriving DecidableEq, Repr

abbrev Ptr := ℕ

/-- No object lives at address `0`. -/
def NULL : Ptr := 0

structure Inode where
  kind : Kind
  byteOffset : ℕ
  parent : Ptr
  name : List Char
  parentDiNumber : ℕ
  diNumber : ℕ
  isMarked : Bool
  /-- `dinode_`, present while `dinode_available_` -/
  dinode : Option Dinode
  /-- of a `DirInode` -/
  siblings : List Ptr

/-- `Inode(uint8_t* ip, uint64_t byte_offset)`, as a member of class `kind`. -/
def Inode.construct (kind : Kind) (ip : Dinode) (byteOffset : ℕ) : Inode where
  kind := kind
  byteOffset := byteOffset
  parent := NULL
  name := []
  parentDiNumber := ip.idotdot
  diNumber := ip.diNumber
  isMarked := false
  dinode := none
  siblings := []

/-- Nobody has linked the object or looked at its dinode. -/
structure Inode.New (ino : Inode) : Prop where
  parent : ino.parent = NULL
  dinode : ino.dinode = none

/-! ### InodeFactory -/

/-- The chain of tests on `di_nlink` and `di_mode` that both functions of the
factory end in; `none` is the `NULL` of an unhandled inode type. -/
def constructByMode (ip : Dinode) (offset : ℕ) : Option Inode :=
  if ip.diNlink = 0 then some (.construct .unallocated ip offset)
  else if ip.diMode &&& IFMT = IFREG then some (.construct .file ip offset)
  else if ip.diMode &&& IFMT = IFDIR then some (.construct .dir ip offset)
  else if ip.diMode &&& IFMT = IFLNK then some (.construct .symlink ip offset)
  else if ip.diMode &&& IFMT = IFBLK ∨ ip.diMode &&& IFMT = IFCHR
      ∨ ip.diMode &&& IFMT = IFFIFO ∨ ip.diMode &&& IFMT = IFSOCK then
    some (.construct .special ip offset)
  else none

def createIfSane (ip : Dinode) (offset : ℕ) : Option Inode :=
  if ip.diIxpxdLen ≠ 4 ∨ ip.diFileset ≠ 16 then none else constructByMode ip offset

def readFromDisk (env : Env) (offset : ℕ) : Except Fault (Option Inode) :=
  (env.device.readBytes (toInt64 offset) 512 env.fresh).map
    (fun ip => constructByMode (.ofBuffer ip 0) offset)

def Device.dinodeAt (dev : Device) (off : ℕ) : Dinode := .ofBuffer dev.data off

/-- A device whose slots hold allocated regular files, numbered from 0 up. -/
def Device.numbered (blocksize : Blocksize) (slots : ℕ) (h : slots * 512 < 2 ^ 63) : Device where
  blocksize := blocksize
  isBlk := true
  stSize := slots * 512
  data := fun k =>
    if k % 512 = 4 then 16 else if k % 512 = 8 then UInt8.ofNat (k / 512)
    else if k % 512 = 16 then 4 else if k % 512 = 40 then 1
    else if k % 512 = 53 then 0x80 else 0
  stSize_lt := h

example : (createIfSane ((Device.numbered .b512 4 (by decide)).dinodeAt 1024) 1024).map
    (fun ino => (ino.kind, ino.diNumber)) = some (.file, 2) := by decide

theorem constructByMode_eq_some {ip : Dinode} {offset : ℕ} {ino : Inode}
    (h : constructByMode ip offset = some ino) : ∃ kind, ino = .construct kind ip offset := by
  unfold constructByMode at h
  repeat' split at h
  all_goals first | exact ⟨_, (Option.some.inj h).symm⟩ | cases h

theorem new_of_constructByMode {ip : Dinode} {offset : ℕ} {ino : Inode}
    (h : constructByMode ip offset = some ino) : ino.New := by
  obtain ⟨kind, rfl⟩ := constructByMode_eq_some h
  exact ⟨rfl, rfl⟩

theorem createIfSane_eq_some {ip : Dinode} {offset : ℕ} {ino : Inode}
    (h : createIfSane ip offset = some ino) : constructByMode ip offset = some ino := by
  unfold createIfSane at h
  split at h
  · cases h
  · exact h

/-! ### Slots -/

/-- An inode slot: 512 bytes of the device at a multiple of 512. -/
def Device.Slot (dev : Device) (off : ℕ) : Prop := off % 512 = 0 ∧ off < dev.getSizeBytes

namespace Device.Slot

variable {dev : Device} {off : ℕ} (h : dev.Slot off)
include h

theorem add_le : off + 512 ≤ dev.getSizeBytes := by
  have h1 := dev.getSizeBytes_eq
  have h2 := h.1
  have h3 := h.2
  omega

theorem lt_2_63 : off < 2 ^ 63 := lt_trans h.2 dev.getSizeBytes_lt

/-- Reading a slot yields its bytes, whatever the buffer held. -/
theorem readBytes (buf : Buffer) : ∃ b, dev.readBytes (toInt64 off) 512 buf = .ok b ∧
    Dinode.ofBuffer b 0 = dev.dinodeAt off := by
  rw [toInt64_of_lt h.lt_2_63]
  refine ⟨_, Device.readBytes_within (Nat.le_of_lt h.2) (by decide), ?_⟩
  refine Dinode.ofBuffer_congr (fun k hk => ?_)
  have h1 := h.add_le
  have h2 := dev.getSizeBytes_le
  rw [Nat.zero_add, Device.fread_of_lt hk (by omega)]

end Device.Slot

theorem readFromDisk_of_slot {env : Env} {off : ℕ} (h : env.device.Slot off) :
    readFromDisk env off = .ok (constructByMode (env.device.dinodeAt off) off) := by
  obtain ⟨b, hb, hd⟩ := h.readBytes env.fresh
  rw [readFromDisk, hb, ← hd]
  rfl

theorem readFromDisk_beyond (env : Env) {off : ℕ} (h : env.device.getSizeBytes < off)
    (h64 : off < 2 ^ 64) : ∃ what, readFromDisk env off = .error (.invalidRead what) := by
  by_cases h63 : off < 2 ^ 63
  · refine ⟨"Requested read beyond file system size.", ?_⟩
    rw [readFromDisk, toInt64_of_lt h63, Device.readBytes_beyond (by exact_mod_cast h)]
    rfl
  · refine ⟨"unable to seek", ?_⟩
    rw [readFromDisk, Device.readBytes, toInt64, if_neg h63, if_neg (by omega), if_pos (by omega)]
    rfl

end Jfsrec
