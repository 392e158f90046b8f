import Jfsrec.Positions
import Mathlib.Data.List.Range

/-!
# The inode scan

`InodeScanner::restore` and `InodeScanner::do_scan`.  The scan reads the device
in chunks of 32768 blocks and one shorter remainder, tests every 512-byte slot
with `createIfSane`, and logs the offset of each inode it finds.

Chunks, remainder and restart position all drop out of what the scan does:
`doScan_from` says that from a slot `start` it finds the sane slots from there to
the end of the device, as long as the device holds a chunk.  A device smaller
than a chunk is never scanned (`doScan_small`): the bound `devsize-chunk_bytes`
of the chunk loop wraps.
-/

namespace Jfsrec

open Lib InodeVector

/-- `InodeScanner`: the vector it fills, and the progress directory. -/
structure Scanner where
  inovec : InodeVector
  files : Files

def chunkBlocks : ℕ := 2 ^ 15

def inodeSize : ℕ := 512

/-- `chunk_bytes`, in 64 bits. -/
def chunkBytes (dev : Device) : ℕ := chunkBlocks * dev.blocksize.bytes

namespace Scanner

/-- `inovec_.add_inode(inode); progress_file_<<offset<<"\n";` -/
def foundInode (s : Scanner) (ino : Inode) : Scanner where
  inovec := s.inovec.addBuilt addInode (some ino)
  files := Function.update s.files .inoscan
    (some ((s.files .inoscan).getD [] ++ Istream.lines [ino.byteOffset]))

theorem foundInode_files (s : Scanner) (ino : Inode) : (s.foundInode ino).files
    = Function.update s.files .inoscan
      (some ((s.files .inoscan).getD [] ++ Istream.lines [ino.byteOffset])) := rfl

def scanBlocks (i n : ℕ) (chunk : Buffer) (s : Scanner) : Scanner :=
  (List.range n).foldl (fun s currIno =>
    match createIfSane (.ofBuffer chunk (currIno * inodeSize)) (i + currIno * inodeSize) with
    | none => s
    | some ino => s.foundInode ino) s

/-- `for (i=start; i<limit; i+=chunk_bytes)`, over whole chunks; the offset and
the buffer it ends with. -/
def scanChunks (dev : Device) (limit : ℕ) :
    ℕ → ℕ → Buffer → Scanner → Except Fault (ℕ × Buffer) × Scanner
  | 0, _, _, s => (.error .diverge, s)
  | fuel + 1, i, chunk, s =>
      if i < limit then
        match dev.readBytes (toInt64 i) (chunkBytes dev % 2 ^ 32) chunk with
        | .error e => (.error e, s)
        | .ok chunk =>
            scanChunks dev limit fuel (wrap64 (i + chunkBytes dev)) chunk
              (s.scanBlocks i (chunkBytes dev / inodeSize) chunk)
      else (.ok (i, chunk), s)

/-- The offset to start from.  Without a progress file one is created, and the
scan starts at byte 0; otherwise every offset in the file is read back, and the
scan goes on behind the last one. -/
def restore (env : Env) (s : Scanner) : Except Fault ℕ × Scanner :=
  match s.files .inoscan with
  | none => (.ok 0, { s with files := Function.update s.files .inoscan (some []) })
  | some text =>
      match readPositions env addInode ⟨text, false, false⟩ env.bo s.inovec with
      | (.error e, v) => (.error e, { s with inovec := v })
      | (.ok (_, bo), v) => (.ok (wrap64 (bo + inodeSize)), { s with inovec := v })

/-- `catch (invalid_read_exception e) { ... exit(1); }` -/
def caught : Fault → Fault
  | .invalidRead _ => .exit 1
  | e => e

/-- The second loop: what lies behind the last whole chunk. -/
def scanRest (dev : Device) (i : ℕ) (chunk : Buffer) (s : Scanner) : Except Fault Unit × Scanner :=
  let bytesLeft := sub64 dev.getSizeBytes i
  match dev.readBytes (toInt64 i) (bytesLeft % 2 ^ 32) chunk with
  | .error e => (.error (caught e), s)
  | .ok chunk => (.ok (), s.scanBlocks i (bytesLeft / 512) chunk)

def doScan (env : Env) (s : Scanner) : Except Fault Unit × Scanner :=
  let dev := env.device
  let devsize := dev.getSizeBytes
  match s.restore env with
  | (.error e, s) => (.error (caught e), s)
  | (.ok start, s) =>
      -- one round per chunk, and one more for a start inside the last
      match s.scanChunks dev (sub64 devsize (chunkBytes dev)) (devsize / chunkBytes dev + 2) start
          env.fresh with
      | (.error e, s) => (.error (caught e), s)
      | (.ok (i, chunk), s) => s.scanRest dev i chunk

/-! ### What a scan finds -/

def found (s : Scanner) (os : List Inode) : Scanner := os.foldl foundInode s

theorem found_append (s : Scanner) (os os' : List Inode) :
    s.found (os ++ os') = (s.found os).found os' := List.foldl_append

theorem found_inovec (s : Scanner) (os : List Inode) :
    (s.found os).inovec = (os.map some).foldl (addBuilt addInode) s.inovec := by
  induction os generalizing s with
  | nil => rfl
  | cons o os ih => exact ih (s.foundInode o)

theorem found_inoscan (s : Scanner) (os : List Inode) {text : List Char}
    (h : s.files .inoscan = some text) :
    (s.found os).files .inoscan = some (text ++ Istream.lines (os.map Inode.byteOffset)) := by
  induction os generalizing s text with
  | nil => simp [found, h]
  | cons o os ih =>
    have h1 : (s.foundInode o).files .inoscan = some (text ++ Istream.lines [o.byteOffset]) := by
      rw [foundInode_files, Function.update_self, h]
      rfl
    rw [found, List.foldl_cons, ← found, ih _ h1, List.append_assoc, ← Istream.lines_append]
    rfl

end Scanner

/-- The inodes `create_if_sane` accepts in the `n` slots from offset `i` on. -/
def Device.sane (dev : Device) (i n : ℕ) : List Inode :=
  (List.range n).filterMap (fun c => createIfSane (dev.dinodeAt (i + c * 512)) (i + c * 512))

theorem Device.sane_add (dev : Device) (i m n : ℕ) :
    dev.sane i (m + n) = dev.sane i m ++ dev.sane (i + m * 512) n := by
  rw [sane, List.range_add, List.filterMap_append, List.filterMap_map]
  refine congrArg₂ (· ++ ·) rfl (List.filterMap_congr (fun c _ => ?_))
  have h : i + (m + c) * 512 = i + m * 512 + c * 512 := by omega
  simp only [Function.comp, h]

theorem Device.sane_of_zero {dev : Device} {i : ℕ} (h : ∀ k, i ≤ k → dev.data k = 0) (n : ℕ) :
    dev.sane i n = [] := by
  refine List.filterMap_eq_nil_iff.mpr (fun c _ => ?_)
  have hzero : dev.dinodeAt (i + c * 512) = ⟨fun _ => 0⟩ := by
    simp only [Device.dinodeAt, Dinode.ofBuffer, Dinode.mk.injEq]
    funext k
    split
    · exact h _ (by omega)
    · rfl
  rw [hzero]
  rfl

namespace Scanner

theorem scanBlocks_found (i n : ℕ) (chunk : Buffer) (s : Scanner) :
    s.scanBlocks i n chunk = s.found ((List.range n).filterMap (fun c =>
      createIfSane (.ofBuffer chunk (c * inodeSize)) (i + c * inodeSize))) := by
  rw [scanBlocks, found, List.foldl_filterMap]
  refine List.foldl_ext _ _ _ (fun s c _ => ?_)
  cases createIfSane (.ofBuffer chunk (c * inodeSize)) (i + c * inodeSize) <;> rfl

theorem scanBlocks_eq {dev : Device} {i n : ℕ} {chunk : Buffer} (s : Scanner)
    (h : ∀ k < n * 512, chunk k = dev.data (i + k)) :
    s.scanBlocks i n chunk = s.found (dev.sane i n) := by
  rw [scanBlocks_found]
  refine congrArg s.found (List.filterMap_congr (fun c hc => ?_))
  have hd : Dinode.ofBuffer chunk (c * inodeSize) = dev.dinodeAt (i + c * inodeSize) := by
    have hlt := List.mem_range.mp hc
    refine Dinode.ofBuffer_congr (fun k hk => ?_)
    rw [h _ (by simp only [inodeSize]; omega), Nat.add_assoc]
  rw [hd]
  rfl

variable {dev : Device}

theorem chunkBytes_eq (dev : Device) : chunkBytes dev = chunkBytes dev / 512 * 512 := by
  unfold chunkBytes chunkBlocks
  rcases dev.blocksize.bytes_mem with h | h | h | h <;> rw [h] <;> decide

theorem chunkBytes_bounds (dev : Device) : 0 < chunkBytes dev ∧ chunkBytes dev < 2 ^ 32 := by
  unfold chunkBytes chunkBlocks
  rcases dev.blocksize.bytes_mem with h | h | h | h <;> rw [h] <;> decide

theorem readBytes_slots (dev : Device) (i n : ℕ) (chunk : Buffer) (hn : 0 < n)
    (hle : i + n * 512 ≤ dev.getSizeBytes) :
    dev.readBytes (toInt64 i) (n * 512) chunk = .ok (dev.fread i (n * 512) chunk) ∧
      ∀ k < n * 512, dev.fread i (n * 512) chunk k = dev.data (i + k) := by
  have hsize := dev.getSizeBytes_lt
  have hst := dev.getSizeBytes_le
  refine ⟨?_, fun k hk => Device.fread_of_lt hk (by omega)⟩
  have hi : i ≤ dev.fssize := by
    show i ≤ dev.getSizeBytes
    omega
  rw [toInt64_of_lt (by omega), Device.readBytes_within hi (by omega)]

/-- **The chunk loop.**  From a slot `i` it reaches a slot `j` in the last chunk,
and has found what is sane between them. -/
theorem scanChunks_spec (hbig : chunkBytes dev ≤ dev.getSizeBytes) :
    ∀ (fuel i : ℕ) (chunk : Buffer) (s : Scanner), i < dev.getSizeBytes →
      dev.getSizeBytes < i + fuel * chunkBytes dev →
      ∃ n chunk', i + n * 512 < dev.getSizeBytes ∧
        dev.getSizeBytes ≤ i + n * 512 + chunkBytes dev ∧
        s.scanChunks dev (sub64 dev.getSizeBytes (chunkBytes dev)) fuel i chunk
          = (.ok (i + n * 512, chunk'), s.found (dev.sane i n)) := by
  have hsize := dev.getSizeBytes_lt
  have hcb := chunkBytes_bounds dev
  have hc := chunkBytes_eq dev
  rw [sub64_of_le hbig (by omega)]
  intro fuel
  induction fuel with
  | zero => intro i chunk s hi hf; omega
  | succ fuel ih =>
    intro i chunk s hi hf
    rw [scanChunks]
    by_cases hlim : i < dev.getSizeBytes - chunkBytes dev
    · rw [if_pos hlim, Nat.mod_eq_of_lt hcb.2]
      obtain ⟨hread, hbytes⟩ := readBytes_slots dev i (chunkBytes dev / 512) chunk
        (by omega) (by omega)
      rw [← hc] at hread hbytes
      obtain ⟨n, chunk', h1, h2, h3⟩ := ih (i + chunkBytes dev)
        (dev.fread i (chunkBytes dev) chunk) (s.found (dev.sane i (chunkBytes dev / 512)))
        (by omega) (by rw [Nat.succ_mul] at hf; omega)
      refine ⟨chunkBytes dev / 512 + n, chunk', by omega, by omega, ?_⟩
      rw [hread]
      simp only
      rw [wrap64_of_lt (by omega), inodeSize, scanBlocks_eq s (by rw [← hc]; exact hbytes), h3,
        ← found_append]
      rw [show i + chunkBytes dev = i + chunkBytes dev / 512 * 512 by omega, ← Device.sane_add,
        show i + chunkBytes dev / 512 * 512 + n * 512
          = i + (chunkBytes dev / 512 + n) * 512 by omega]
    · rw [if_neg hlim]
      exact ⟨0, chunk, by omega, by omega, by simp [Device.sane, found]⟩

/-- The remainder, from a slot in the last chunk. -/
theorem scanRest_spec {i : ℕ} (chunk : Buffer) (s : Scanner) (hi : dev.Slot i)
    (hrest : dev.getSizeBytes ≤ i + chunkBytes dev) :
    s.scanRest dev i chunk = (.ok (), s.found (dev.sane i ((dev.getSizeBytes - i) / 512))) := by
  have hsize := dev.getSizeBytes_lt
  have hcb := chunkBytes_bounds dev
  have hlt := hi.2
  have hsub : sub64 dev.getSizeBytes i = dev.getSizeBytes - i :=
    sub64_of_le (Nat.le_of_lt hlt) (by omega)
  have hslots : dev.getSizeBytes - i = (dev.getSizeBytes - i) / 512 * 512 := by
    have h1 := dev.getSizeBytes_eq
    have h2 := hi.1
    omega
  have hmod : (dev.getSizeBytes - i) % 2 ^ 32 = (dev.getSizeBytes - i) / 512 * 512 := by
    rw [Nat.mod_eq_of_lt (by omega)]
    exact hslots
  obtain ⟨hread, hbytes⟩ := readBytes_slots dev i ((dev.getSizeBytes - i) / 512) chunk
    (by omega) (by omega)
  rw [scanRest, hsub, hmod, hread]
  show (Except.ok (), _) = _
  rw [scanBlocks_eq s hbytes]

/-- **A scan finds the sane slots from its start to the end of the device**, on
a device that holds at least a chunk. -/
theorem doScan_from {env : Env} {s s' : Scanner} {start : ℕ}
    (hbig : chunkBytes env.device ≤ env.device.getSizeBytes)
    (hrestore : s.restore env = (.ok start, s')) (hslot : env.device.Slot start) :
    s.doScan env
      = (.ok (), s'.found (env.device.sane start ((env.device.getSizeBytes - start) / 512))) := by
  have hcb := chunkBytes_bounds env.device
  have hdev := env.device.getSizeBytes_eq
  have hmod := hslot.1
  have hfuel : env.device.getSizeBytes
      < start + (env.device.getSizeBytes / chunkBytes env.device + 2) * chunkBytes env.device := by
    have h1 := Nat.div_add_mod env.device.getSizeBytes (chunkBytes env.device)
    have h2 := Nat.mod_lt env.device.getSizeBytes hcb.1
    rw [Nat.mul_comm] at h1
    rw [Nat.add_mul]
    omega
  obtain ⟨n, chunk', h1, h2, h3⟩ := scanChunks_spec hbig _ start env.fresh s' hslot.2 hfuel
  rw [doScan, hrestore]
  simp only [h3]
  rw [scanRest_spec chunk' _ ⟨by omega, h1⟩ h2, ← found_append, ← Device.sane_add]
  rw [show n + (env.device.getSizeBytes - (start + n * 512)) / 512
    = (env.device.getSizeBytes - start) / 512 by omega]

/-! ### Devices smaller than a chunk -/

theorem readBytes_error {off : ℤ} {n : ℕ} {buf : Buffer} {e : Fault}
    (h : dev.readBytes off n buf = .error e) : caught e = .exit 1 := by
  unfold Device.readBytes at h
  repeat' split at h
  all_goals cases h
  all_goals rfl

/-- A read from behind the device throws, also where the position no longer
fits an `int64_t`. -/
theorem readBytes_behind {i : ℕ} (n : ℕ) (buf : Buffer) (hi : dev.getSizeBytes < i)
    (h64 : i < 2 ^ 64) :
    ∃ e, dev.readBytes (toInt64 i) n buf = .error e := by
  by_cases h63 : i < 2 ^ 63
  · rw [toInt64_of_lt h63]
    exact ⟨_, Device.readBytes_beyond (by exact_mod_cast hi)⟩
  · have hneg : toInt64 i < 0 := by
      rw [toInt64, if_neg h63]
      omega
    exact ⟨_, by rw [Device.readBytes, if_neg (by omega), if_pos hneg]⟩

/-- The bound of the chunk loop wraps, and a chunk behind the device is read. -/
theorem scanChunks_small (hsmall : dev.getSizeBytes < chunkBytes dev) (fuel : ℕ) {i : ℕ}
    (h64 : i < 2 ^ 64) (chunk : Buffer) (s : Scanner) :
    let limit := sub64 dev.getSizeBytes (chunkBytes dev)
    (∃ e s', s.scanChunks dev limit (fuel + 2) i chunk = (.error e, s') ∧ caught e = .exit 1) ∨
      limit ≤ i ∧ s.scanChunks dev limit (fuel + 2) i chunk = (.ok (i, chunk), s) := by
  have hsize := dev.getSizeBytes_lt
  have hcb := chunkBytes_bounds dev
  rw [sub64_of_lt hsmall (by omega)]
  by_cases hlim : i < dev.getSizeBytes + 2 ^ 64 - chunkBytes dev
  · left
    rw [scanChunks, if_pos hlim]
    cases hr : dev.readBytes (toInt64 i) (chunkBytes dev % 2 ^ 32) chunk with
    | error e => exact ⟨e, s, rfl, readBytes_error hr⟩
    | ok chunk' =>
      have hin : i ≤ dev.getSizeBytes := by
        by_contra hout
        obtain ⟨e, he⟩ := readBytes_behind (chunkBytes dev % 2 ^ 32) chunk
          (Nat.lt_of_not_le hout) h64
        rw [he] at hr
        cases hr
      have hout : dev.getSizeBytes < i + chunkBytes dev := by omega
      obtain ⟨e, he⟩ := readBytes_behind (chunkBytes dev % 2 ^ 32) chunk' hout (by omega)
      refine ⟨e, s.scanBlocks i (chunkBytes dev / inodeSize) chunk', ?_, readBytes_error he⟩
      simp only
      rw [wrap64_of_lt (by omega), scanChunks, if_pos (by omega), he]
  · right
    rw [scanChunks, if_neg hlim]
    exact ⟨by omega, rfl⟩

theorem restore_lt {env : Env} {s s' : Scanner} {start : ℕ}
    (h : s.restore env = (.ok start, s')) : start < 2 ^ 64 := by
  unfold restore at h
  split at h
  · cases h
    decide
  · split at h
    · cases h
    · simp only [Prod.mk.injEq, Except.ok.injEq] at h
      rw [← h.1]
      exact Nat.mod_lt _ (by decide)

/-- **A device smaller than a chunk is not scanned**: wherever the scan starts,
the program exits. -/
theorem doScan_small {env : Env} {s s' : Scanner} {start : ℕ}
    (hsmall : env.device.getSizeBytes < chunkBytes env.device)
    (hrestore : s.restore env = (.ok start, s')) : (s.doScan env).1 = .error (.exit 1) := by
  have hsize := env.device.getSizeBytes_lt
  have hcb := chunkBytes_bounds env.device
  have h64 := restore_lt hrestore
  rw [doScan, hrestore]
  rcases scanChunks_small hsmall (env.device.getSizeBytes / chunkBytes env.device) h64 env.fresh s'
    with ⟨e, s'', he, hexit⟩ | ⟨hlim, hok⟩
  · simp only [he, hexit]
  · -- a start near the end of the 64-bit range skips the chunk loop
    rw [sub64_of_lt hsmall (by omega)] at hlim
    have hout : env.device.getSizeBytes < start := by omega
    obtain ⟨e, he⟩ := readBytes_behind (sub64 env.device.getSizeBytes start % 2 ^ 32) env.fresh
      hout h64
    simp only [hok, scanRest, he, readBytes_error he]

/-! ### Coverage -/

/-- `do_scan` without a progress file ends and leaves one inode for each sane
slot of the device, in the order of their offsets. -/
def Covers (env : Env) (ok : Bool) (files : Files) : Prop :=
  (doScan env ⟨start ok, files⟩).1 = .ok () ∧
  (doScan env ⟨start ok, files⟩).2.inovec.contents
    = (env.device.sane 0 (env.device.getSizeBytes / 512)).map some

theorem restore_none (env : Env) {s : Scanner} (h : s.files .inoscan = none) :
    s.restore env
      = (.ok 0, { s with files := Function.update s.files .inoscan (some []) }) := by
  rw [restore, h]

theorem contents_foldl_start (ok : Bool) (os : List (Option Inode)) :
    (os.foldl (addBuilt addInode) (start ok)).contents = os := by
  obtain ⟨_, _, _, news, h4, h5, _, _⟩ := foldl_addBuilt pushes_addInode os (start ok) Nat.one_pos
  rw [contents, h4]
  exact h5

/-- A scan of a device that holds a chunk, without a progress file. -/
theorem doScan_full (env : Env) (files : Files) (ok : Bool)
    (hbig : chunkBytes env.device ≤ env.device.getSizeBytes) (hfile : files .inoscan = none) :
    let os := env.device.sane 0 (env.device.getSizeBytes / 512)
    (doScan env ⟨start ok, files⟩).1 = .ok () ∧
      (doScan env ⟨start ok, files⟩).2.inovec.contents = os.map some ∧
      (doScan env ⟨start ok, files⟩).2.files .inoscan
        = some (Istream.lines (os.map Inode.byteOffset)) := by
  have hcb := chunkBytes_bounds env.device
  rw [doScan_from hbig (restore_none env hfile) ⟨rfl, by omega⟩]
  refine ⟨rfl, ?_, ?_⟩
  · rw [found_inovec]
    exact contents_foldl_start ok _
  · have hnew : (Function.update files .inoscan (some [])) .inoscan = some [] :=
      Function.update_self _ _ _
    exact found_inoscan ⟨start ok, Function.update files .inoscan (some [])⟩ _ hnew

/-- **The scan covers exactly the devices that hold a chunk.** -/
theorem covers_iff {env : Env} {files : Files} (ok : Bool) (hfile : files .inoscan = none) :
    Covers env ok files ↔ chunkBytes env.device ≤ env.device.getSizeBytes := by
  have hrestore := restore_none env (s := ⟨start ok, files⟩) hfile
  constructor
  · intro hc
    by_contra hsmall
    have h := doScan_small (Nat.lt_of_not_le hsmall) hrestore
    rw [hc.1] at h
    cases h
  · intro hbig
    obtain ⟨h1, h2, _⟩ := doScan_full env files ok hbig hfile
    exact ⟨h1, h2⟩

def oneChunk : Env := (Device.numbered .b512 (2 ^ 15) (by decide)).zeroed

theorem covers_oneChunk : Covers oneChunk true (fun _ => none) :=
  (covers_iff true rfl).mpr (by decide)

/-- Two slots, both of them sane, and the program exits. -/
theorem not_covers_twoSlots :
    (twoSlots.device.sane 0 2).length = 2 ∧
    (doScan twoSlots ⟨start true, fun _ => none⟩).1 = .error (.exit 1) ∧
    ¬ Covers twoSlots true (fun _ => none) := by
  have h := doScan_small (s := ⟨start true, fun _ => none⟩) (by decide)
    (restore_none twoSlots rfl)
  refine ⟨by decide, h, fun hc => ?_⟩
  rw [hc.1] at h
  cases h

end Scanner

end Jfsrec
