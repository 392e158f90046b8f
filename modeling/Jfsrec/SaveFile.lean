import Jfsrec.Extents
import Mathlib.Order.Interval.Set.Basic

/-!
# Saving a file

`save_file` of `fileinode.cpp` opens the output file, copies the extents of the inode one
after another, truncates the file to `di_size` and closes it.  The writes pass through the
buffer of `stdio`, and the truncation does not: of the last write, only some first bytes
have reached the file by then, and the others follow when the file is closed.

`saveFile_content` says what the file holds in the end.
-/

namespace Jfsrec

open Lib

def Dinode.diSize (d : Dinode) : ℤ := toInt64 (leBytes d.byte 24 8)

/-- `get_dinode`, of an object that holds no dinode. -/
def Env.getDinode (env : Env) (byteOffset : ℕ) : Outcome Exn Dinode :=
  (env.readBytes (toInt64 byteOffset) 512 env.fresh).bind (fun b => .ret (.ofBuffer b 0))

theorem Env.getDinode_cases (env : Env) (byteOffset : ℕ) :
    (∃ d, env.getDinode byteOffset = .ret d) ∨
      ∃ what, env.getDinode byteOffset = .raise (.invalidRead what) := by
  unfold getDinode
  rcases env.readBytes_cases (toInt64 byteOffset) 512 env.fresh with ⟨b, hb⟩ | ⟨what, hb⟩
  · rw [hb]
    exact Or.inl ⟨_, rfl⟩
  · rw [hb]
    exact Or.inr ⟨what, rfl⟩

theorem Env.getDinode_of_slot {env : Env} {off : ℕ} (h : env.device.Slot off) :
    env.getDinode off = .ret (env.readDinode off) := by
  obtain ⟨b, hb, _⟩ := h.readBytes env.fresh
  rw [getDinode, readDinode, Env.readBytes, hb]
  rfl

/-- What `save_file` does: how it ends, what the buffer holds then, and what it does to the
file that it opens, `none` if it does not get to open one. -/
structure Saved where
  outcome : Outcome Exn Unit
  buffer : Buffer
  ops : Option (List FileOp)

/-- The output file then, of which `file` is what there was before.  Opening empties it. -/
def Saved.content (s : Saved) (file : Option SparseFile) : Option SparseFile :=
  match s.ops with
  | none => file
  | some ops => some (SparseFile.empty.run ops)

namespace FileInode

def writeExtents (env : Env) : List Xad → Buffer → Copied
  | [], buffer => ⟨.ret (), buffer, []⟩
  | x :: xs, buffer =>
      let c := writeExtentToFile env x buffer
      match c.outcome with
      | .ret _ =>
          let rest := writeExtents env xs c.buffer
          { rest with writes := c.writes ++ rest.writes }
      | _ => c

/-- `ftruncate`, which refuses a negative size. -/
def ftruncate (size : ℤ) : List FileOp := if size < 0 then [] else [.truncate size.toNat]

/-- The writes, the truncation, and the closing of the file.  When the file is truncated,
`early` bytes of the last write have left the buffer of `stdio`. -/
def truncateAndClose (early : ℕ) (writes : List Patch) (size : ℤ) : List FileOp :=
  match writes.getLast? with
  | none => ftruncate size
  | some w => writes.dropLast.map .write ++
      .write (w.take early) :: (ftruncate size ++ [.write (w.drop early)])

/-- The `try` block of `save_file`, once the file is open; `none` when the fuel runs out. -/
def saveOpened (env : Env) (fuel early byteOffset : ℕ) (buffer : Buffer) : Option Saved :=
  match env.getDinode byteOffset with
  | .raise e => some ⟨.raise e, buffer, some []⟩
  | .terminate => some ⟨.terminate, buffer, some []⟩
  | .ret d =>
      if Xtpage.nextindex (dinodeMemory env d) rootPos ≤ 2 then some ⟨.ret (), buffer, some []⟩
      else
        match collectXads env fuel d with
        | none => none
        | some (.raise e) => some ⟨.raise e, buffer, some []⟩
        | some .terminate => some ⟨.terminate, buffer, some []⟩
        | some (.ret xads) =>
            let c := writeExtents env xads buffer
            match c.outcome with
            | .ret _ => some ⟨.ret (), c.buffer, some (truncateAndClose early c.writes d.diSize)⟩
            | o => some ⟨o, c.buffer, some (c.writes.map .write)⟩

/-- `save_file`.  All handlers close the file; the one for `extent_error` does not throw the
exception again. -/
def saveFile (env : Env) (fuel early : ℕ) (getFullPath : Outcome Exn Unit) (byteOffset : ℕ)
    (buffer : Buffer) : Option Saved :=
  match getFullPath with
  | .ret _ =>
      (saveOpened env fuel early byteOffset buffer).map (fun s =>
        { s with
          outcome := (s.outcome.handle Exn.isExtentError (fun _ => .ret ())).spec Exn.caught })
  | o => some ⟨o.spec Exn.caught, buffer, none⟩

variable {env : Env} {x : Xad} {d : Dinode} {xads : List Xad} {k : ℕ}

/-! ### Positions in an extent -/

theorem block_of (offset r : ℕ) {bs : ℕ} (hbs : 0 < bs) :
    (offset * bs + r) / bs = offset + r / bs ∧ (offset * bs + r) % bs = r % bs := by
  constructor
  · rw [Nat.mul_comm, Nat.mul_add_div hbs]
  · rw [Nat.mul_comm, Nat.mul_add_mod]

def blocks (x : Xad) : Set ℕ := Set.Ico x.offset (x.offset + x.len)

def Contains (env : Env) (x : Xad) (k : ℕ) : Prop := k / env.device.blocksize.bytes ∈ blocks x

instance (env : Env) (x : Xad) (k : ℕ) : Decidable (Contains env x k) :=
  inferInstanceAs (Decidable (_ ∧ _))

def sourcePos (env : Env) (x : Xad) (k : ℕ) : ℕ :=
  (x.address + k / env.device.blocksize.bytes - x.offset) * env.device.blocksize.bytes
    + k % env.device.blocksize.bytes

theorem contains_filePos {r : ℕ} (hr : r < x.len * env.device.blocksize.bytes) :
    Contains env x (filePos env x r) := by
  have hbs := env.device.blocksize.bytes_pos
  obtain ⟨hdiv, _⟩ := block_of x.offset r hbs
  have hlt : r / env.device.blocksize.bytes < x.len := (Nat.div_lt_iff_lt_mul hbs).mpr hr
  unfold Contains filePos
  rw [hdiv]
  exact ⟨Nat.le_add_right _ _, Nat.add_lt_add_left hlt _⟩

theorem sourcePos_filePos (env : Env) (x : Xad) (r : ℕ) :
    sourcePos env x (filePos env x r) = devicePos env x r := by
  have hbs := env.device.blocksize.bytes_pos
  obtain ⟨hdiv, hmod⟩ := block_of x.offset r hbs
  unfold sourcePos filePos devicePos
  rw [hdiv, hmod, Nat.add_left_comm, Nat.add_sub_cancel_left, Nat.add_mul, Nat.add_assoc,
    Nat.div_add_mod']

theorem Contains.exists_filePos (h : Contains env x k) :
    ∃ r < x.len * env.device.blocksize.bytes, filePos env x r = k := by
  have hbs := env.device.blocksize.bytes_pos
  obtain ⟨hlo, hhi⟩ := h
  have hlo' := (Nat.le_div_iff_mul_le hbs).mp hlo
  have hhi' := (Nat.div_lt_iff_lt_mul hbs).mp hhi
  rw [Nat.add_mul] at hhi'
  refine ⟨k - x.offset * env.device.blocksize.bytes, by omega, ?_⟩
  unfold filePos
  omega

/-! ### An extent that the device holds -/

/-- The extent lies in the device, and its length in bytes has 32 bits. -/
structure Whole (env : Env) (x : Xad) : Prop where
  inside : (x.address + x.len) * env.device.blocksize.bytes ≤ env.device.stSize
  short : x.len * env.device.blocksize.bytes < 2 ^ 32

theorem blocksize_dvd (env : Env) (n : ℕ) : n * env.device.blocksize.bytes % 512 = 0 := by
  rcases env.device.blocksize.bytes_mem with h | h | h | h <;> rw [h] <;> omega

namespace Whole

theorem extentBytes_eq (h : Whole env x) :
    extentBytes env x = x.len * env.device.blocksize.bytes := Nat.mod_eq_of_lt h.short

theorem piece_within (h : Whole env x) {r : ℕ} (hmod : r % buffsize = 0)
    (hr : r < extentBytes env x) :
    devicePos env x r ≤ env.device.fssize ∧
      devicePos env x r + pieceBytes (extentBytes env x) r ≤ env.device.stSize := by
  have hin := h.inside
  have hle := pieceBytes_le hr
  have haddr := blocksize_dvd env x.address
  have hlen := blocksize_dvd env x.len
  rw [Nat.add_mul] at hin
  rw [h.extentBytes_eq] at hr hle ⊢
  unfold devicePos Device.fssize Device.getSizeBytes
  unfold buffsize at hmod
  refine ⟨?_, by omega⟩
  split <;> omega

theorem piecesFit (h : Whole env x) : PiecesFit env x :=
  fun _ hmod hr _ => (h.piece_within hmod hr).2

theorem copyPieces_ret (h : Whole env x) {fuel r : ℕ} (hmod : r % buffsize = 0)
    (buffer : Buffer) : (copyPieces env x fuel r buffer).outcome = .ret () := by
  induction fuel generalizing r buffer with
  | zero => rfl
  | succ fuel ih =>
    by_cases hr : r < extentBytes env x
    · rw [copyPieces_of_within hr (h.piece_within hmod hr).1]
      exact ih (by rwa [Nat.add_mod_right]) _
    · rw [copyPieces_of_le (by omega)]

theorem writeExtentToFile_ret (h : Whole env x) (buffer : Buffer) :
    (writeExtentToFile env x buffer).outcome = .ret () := by
  unfold writeExtentToFile
  dsimp only
  rw [h.copyPieces_ret (Nat.zero_mod _)]
  rfl

/-- What is written for a position is the byte of the extent for that position. -/
theorem contains_of_byteAt (h : Whole env x) {buffer : Buffer} {w : Patch} {b : UInt8}
    (hw : w ∈ (writeExtentToFile env x buffer).writes) (hb : w.byteAt k = some b) :
    Contains env x k ∧ b = env.device.data (sourcePos env x k) := by
  obtain ⟨i, rfl, hi⟩ := Patch.byteAt_eq_some.mp hb
  obtain ⟨hlt, _⟩ := List.getElem?_eq_some_iff.mp hi
  obtain ⟨r, hr, hpos, _, hdata⟩ := writeExtentToFile_fromDevice h.piecesFit hw i hlt
  rw [h.extentBytes_eq] at hr
  rw [← hpos, sourcePos_filePos]
  refine ⟨contains_filePos hr, ?_⟩
  rw [hi] at hdata
  exact Option.some.inj hdata

/-- Something is written for every position in the extent. -/
theorem exists_byteAt (h : Whole env x) (hk : Contains env x k) (buffer : Buffer) :
    ∃ w ∈ (writeExtentToFile env x buffer).writes,
      w.byteAt k = some (env.device.data (sourcePos env x k)) := by
  obtain ⟨r, hr, rfl⟩ := hk.exists_filePos
  rw [← h.extentBytes_eq] at hr
  -- the piece of the byte, and the byte's place in it
  obtain ⟨i, j, hj, rfl⟩ : ∃ i j, j < buffsize ∧ r = 0 + i * buffsize + j :=
    ⟨r / buffsize, r % buffsize, Nat.mod_lt _ (by decide), by
      rw [Nat.zero_add, Nat.div_add_mod']⟩
  have hi : 0 + i * buffsize < extentBytes env x := by omega
  have hmod : (0 + i * buffsize) % buffsize = 0 := by rw [Nat.zero_add, Nat.mul_mod_left]
  have hcount : j < pieceBytes (extentBytes env x) (0 + i * buffsize) := by
    unfold pieceBytes
    split <;> omega
  obtain ⟨hread, hfit⟩ := h.piece_within hmod hi
  obtain ⟨b, hmem⟩ := exists_piece_mem pieceFuel_enough hi hread buffer
  refine ⟨_, hmem, Patch.byteAt_eq_some.mpr ⟨j, (Nat.add_assoc _ _ _).symm, ?_⟩⟩
  rw [piece, List.getElem?_map, List.getElem?_range hcount, Option.map_some,
    Device.fread_of_lt hcount (by omega), sourcePos_filePos]
  congr 2
  exact Nat.add_assoc _ _ _

end Whole

/-! ### The extents of a file -/

/-- Each extent is whole, and no two contain the same block of the file. -/
structure WellPlaced (env : Env) (xads : List Xad) : Prop where
  whole : ∀ x ∈ xads, Whole env x
  disjoint : xads.Pairwise (fun x y => ∀ n ∈ blocks x, n ∉ blocks y)

theorem writeExtents_ret (h : ∀ x ∈ xads, Whole env x) (buffer : Buffer) :
    (writeExtents env xads buffer).outcome = .ret () := by
  induction xads generalizing buffer with
  | nil => rfl
  | cons x xs ih =>
    rw [writeExtents]
    dsimp only
    rw [(h x List.mem_cons_self).writeExtentToFile_ret]
    exact ih (fun y hy => h y (List.mem_cons_of_mem _ hy)) _

theorem exists_extent_of_mem {buffer : Buffer} {w : Patch}
    (hw : w ∈ (writeExtents env xads buffer).writes) :
    ∃ x ∈ xads, ∃ b, w ∈ (writeExtentToFile env x b).writes := by
  induction xads generalizing buffer with
  | nil => cases hw
  | cons x xs ih =>
    rw [writeExtents] at hw
    dsimp only at hw
    split at hw
    · rcases List.mem_append.mp hw with h | h
      · exact ⟨x, List.mem_cons_self, buffer, h⟩
      · obtain ⟨y, hy, hb⟩ := ih h
        exact ⟨y, List.mem_cons_of_mem _ hy, hb⟩
    · exact ⟨x, List.mem_cons_self, buffer, hw⟩

theorem exists_subset_writes (h : ∀ y ∈ xads, Whole env y) (hx : x ∈ xads) (buffer : Buffer) :
    ∃ b, (writeExtentToFile env x b).writes ⊆ (writeExtents env xads buffer).writes := by
  induction xads generalizing buffer with
  | nil => cases hx
  | cons y ys ih =>
    rw [writeExtents]
    dsimp only
    rw [(h y List.mem_cons_self).writeExtentToFile_ret]
    rcases List.mem_cons.mp hx with rfl | hx
    · exact ⟨buffer, List.subset_append_left _ _⟩
    · obtain ⟨b, hb⟩ := ih (fun z hz => h z (List.mem_cons_of_mem _ hz)) hx
        (writeExtentToFile env y buffer).buffer
      exact ⟨b, List.subset_append_of_subset_right _ hb⟩

/-! ### Truncating and closing -/

variable {early : ℕ} {writes : List Patch} {size : ℤ}

/-- Below the size that the file gets, only the writes put bytes. -/
theorem exists_write_of_left {op : FileOp} {b : UInt8}
    (hop : op ∈ truncateAndClose early writes size) (hk : (k : ℤ) < size)
    (hb : SparseFile.left k op = some b) : ∃ w ∈ writes, w.byteAt k = some b := by
  have htrunc : op ∉ ftruncate size := by
    intro h
    unfold ftruncate at h
    split at h
    · cases h
    · obtain rfl := List.mem_singleton.mp h
      rw [SparseFile.left, if_neg (by omega)] at hb
      cases hb
  unfold truncateAndClose at hop
  split at hop
  · exact absurd hop htrunc
  · rename_i w hw
    have hmem : w ∈ writes := List.mem_of_getLast? hw
    simp only [List.mem_append, List.mem_map, List.mem_cons, List.not_mem_nil, or_false] at hop
    rcases hop with ⟨w', hw', rfl⟩ | rfl | h | rfl
    · exact ⟨w', List.mem_of_mem_dropLast hw', hb⟩
    · exact ⟨w, hmem, Patch.byteAt_of_take hb⟩
    · exact absurd h htrunc
    · exact ⟨w, hmem, Patch.byteAt_of_drop hb⟩

theorem exists_left_of_write {w : Patch} {b : UInt8} (hw : w ∈ writes)
    (hb : w.byteAt k = some b) :
    ∃ op ∈ truncateAndClose early writes size, SparseFile.left k op = some b := by
  unfold truncateAndClose
  split
  · rename_i hnil
    rw [List.getLast?_eq_none_iff.mp hnil] at hw
    cases hw
  · rename_i l hl
    obtain ⟨front, rfl⟩ := List.getLast?_eq_some_iff.mp hl
    rw [List.dropLast_concat]
    rcases List.mem_append.mp hw with h | h
    · exact ⟨.write w, by simp [h], hb⟩
    · obtain rfl := List.mem_singleton.mp h
      rw [← Patch.byteAt_take_or_drop (n := early)] at hb
      rcases Option.or_eq_some_iff.mp hb with h | ⟨_, h⟩
      · exact ⟨.write (w.drop early), by simp, h⟩
      · exact ⟨.write (w.take early), by simp, h⟩

/-- The file is not shorter than the size it gets. -/
theorem le_size_truncateAndClose (f : SparseFile) (early : ℕ) (writes : List Patch)
    (hsize : 0 ≤ size) :
    size ≤ (f.run (truncateAndClose early writes size)).size := by
  unfold truncateAndClose ftruncate
  rw [if_neg (by omega), SparseFile.size_run]
  split
  · show size ≤ (size.toNat : ℤ)
    omega
  · rename_i w _
    rw [List.foldl_append]
    have h := SparseFile.le_sizeAfter_write size.toNat (w.drop early)
    show size ≤ (SparseFile.sizeAfter size.toNat (.write (w.drop early)) : ℤ)
    omega

/-! ### What the file holds -/

theorem WellPlaced.eq_of_contains (h : WellPlaced env xads) {y : Xad} (hx : x ∈ xads)
    (hy : y ∈ xads) (hxk : Contains env x k) (hyk : Contains env y k) : x = y := by
  by_contra hne
  have : Std.Symm (fun x y : Xad => ∀ n ∈ blocks x, n ∉ blocks y) :=
    ⟨fun _ _ hd n hy hx => hd n hx hy⟩
  exact h.disjoint.forall hx hy hne _ hxk hyk

theorem WellPlaced.byteAt (h : WellPlaced env xads) (hx : x ∈ xads) (hk : Contains env x k)
    {buffer : Buffer} {w : Patch} {b : UInt8} (hw : w ∈ (writeExtents env xads buffer).writes)
    (hb : w.byteAt k = some b) : b = env.device.data (sourcePos env x k) := by
  obtain ⟨y, hy, _, hwy⟩ := exists_extent_of_mem hw
  obtain ⟨hyk, hdata⟩ := (h.whole y hy).contains_of_byteAt hwy hb
  obtain rfl := h.eq_of_contains hx hy hk hyk
  exact hdata

/-- The last byte that comes to a position in an extent is the byte of the extent. -/
theorem WellPlaced.lastByte (h : WellPlaced env xads) (hx : x ∈ xads) (hk : Contains env x k)
    (buffer : Buffer) {early : ℕ} {size : ℤ} (hsize : (k : ℤ) < size) :
    SparseFile.lastByte (truncateAndClose early (writeExtents env xads buffer).writes size) k
      = some (env.device.data (sourcePos env x k)) := by
  apply SparseFile.lastByte_of_agree
  · intro op hop b hb
    obtain ⟨w, hw, hbw⟩ := exists_write_of_left hop hsize hb
    exact h.byteAt hx hk hw hbw
  · obtain ⟨b, hsub⟩ := exists_subset_writes h.whole hx buffer
    obtain ⟨w, hw, hbw⟩ := (h.whole x hx).exists_byteAt hk b
    exact exists_left_of_write (hsub hw) hbw

/-- To a position that no extent contains comes no byte. -/
theorem WellPlaced.lastByte_hole (h : WellPlaced env xads)
    (hk : ∀ x ∈ xads, ¬ Contains env x k) (buffer : Buffer) {early : ℕ} {size : ℤ}
    (hsize : (k : ℤ) < size) :
    SparseFile.lastByte (truncateAndClose early (writeExtents env xads buffer).writes size) k
      = none := by
  apply SparseFile.lastByte_eq_none
  intro op hop
  rw [Option.eq_none_iff_forall_not_mem]
  intro b hb
  obtain ⟨w, hw, hbw⟩ := exists_write_of_left hop hsize hb
  obtain ⟨y, hy, _, hwy⟩ := exists_extent_of_mem hw
  exact hk y hy ((h.whole y hy).contains_of_byteAt hwy hbw).1

theorem saveOpened_of_xads {byteOffset fuel early : ℕ} {buffer : Buffer}
    (hdinode : env.getDinode byteOffset = .ret d)
    (hroot : ¬ Xtpage.nextindex (dinodeMemory env d) rootPos ≤ 2)
    (hxads : collectXads env fuel d = some (.ret xads))
    (hret : (writeExtents env xads buffer).outcome = .ret ()) :
    saveOpened env fuel early byteOffset buffer =
      some ⟨.ret (), (writeExtents env xads buffer).buffer,
        some (truncateAndClose early (writeExtents env xads buffer).writes d.diSize)⟩ := by
  rw [saveOpened, hdinode]
  dsimp only
  rw [if_neg hroot, hxads]
  dsimp only
  rw [hret]

theorem saveFile_of_xads {byteOffset fuel early : ℕ} {buffer : Buffer}
    (hdinode : env.getDinode byteOffset = .ret d)
    (hroot : ¬ Xtpage.nextindex (dinodeMemory env d) rootPos ≤ 2)
    (hxads : collectXads env fuel d = some (.ret xads))
    (hret : (writeExtents env xads buffer).outcome = .ret ()) :
    saveFile env fuel early (.ret ()) byteOffset buffer =
      some ⟨.ret (), (writeExtents env xads buffer).buffer,
        some (truncateAndClose early (writeExtents env xads buffer).writes d.diSize)⟩ := by
  rw [saveFile, saveOpened_of_xads hdinode hroot hxads hret]
  rfl

theorem saveFile_ret {byteOffset fuel early : ℕ} {buffer : Buffer}
    (hdinode : env.getDinode byteOffset = .ret d)
    (hroot : 2 < Xtpage.nextindex (dinodeMemory env d) rootPos)
    (hxads : collectXads env fuel d = some (.ret xads)) (hwhole : ∀ x ∈ xads, Whole env x) :
    saveFile env fuel early (.ret ()) byteOffset buffer =
      some ⟨.ret (), (writeExtents env xads buffer).buffer,
        some (truncateAndClose early (writeExtents env xads buffer).writes d.diSize)⟩ :=
  saveFile_of_xads hdinode (by omega) hxads (writeExtents_ret hwhole buffer)

/-- **The file holds the bytes of its extents, and zeros where there is none.** -/
theorem saveFile_content {fuel : ℕ} (byteOffset early : ℕ) (buffer : Buffer)
    (file : Option SparseFile) (hdinode : env.getDinode byteOffset = .ret d)
    (hroot : 2 < Xtpage.nextindex (dinodeMemory env d) rootPos) (hdiSize : 0 ≤ d.diSize)
    (hxads : collectXads env fuel d = some (.ret xads)) (hplaced : WellPlaced env xads) :
    ∃ s f, saveFile env fuel early (.ret ()) byteOffset buffer = some s ∧ s.outcome = .ret () ∧
      s.content file = some f ∧ ∀ k : ℕ, k < d.diSize → k < f.size ∧
        (∀ x ∈ xads, Contains env x k → f.byte k = env.device.data (sourcePos env x k)) ∧
        ((∀ x ∈ xads, ¬ Contains env x k) → f.byte k = 0) := by
  refine ⟨_, _, saveFile_ret hdinode hroot hxads hplaced.whole, rfl, rfl, ?_⟩
  intro k hk
  refine ⟨?_, fun x hx hxk => ?_, fun hnone => ?_⟩
  · have hle := le_size_truncateAndClose .empty early (writeExtents env xads buffer).writes hdiSize
    omega
  · rw [SparseFile.byte_run, hplaced.lastByte hx hxk buffer hk, Option.getD_some]
  · rw [SparseFile.byte_run, hplaced.lastByte_hole hnone buffer hk, Option.getD_none]
    rfl

/-- A device with a file of 1300 bytes, which has a block, a hole and a block. -/
def holed : Env :=
  (Device.disk [(24, 0x14), (25, 5), (240, 2), (242, 4), (264, 1), (268, 2), (276, 2), (280, 1),
    (284, 3), (1024, 7), (1536, 8)]).zeroed

def holedXads : List Xad := [.of 0 1 2, .of 2 1 3]

theorem wellPlaced_holedXads : WellPlaced holed holedXads := by
  refine ⟨?_, ?_⟩
  · intro x hx
    rcases List.mem_pair.mp hx with rfl | rfl
    · exact ⟨by decide, by decide⟩
    · exact ⟨by decide, by decide⟩
  · apply List.pairwise_pair.mpr
    rintro n ⟨_, hlt⟩ ⟨hle, _⟩
    have hlt' : n < 1 := hlt
    have hle' : 2 ≤ n := hle
    omega

theorem saveFile_content_holed :
    ∃ s f, saveFile holed 0 100 (.ret ()) 0 (fun _ => 9) = some s ∧ s.content none = some f ∧
      f.byte 0 = 7 ∧ f.byte 600 = 0 ∧ f.byte 1024 = 8 := by
  obtain ⟨s, f, hs, _, hf, hbytes⟩ := saveFile_content 0 100 (fun _ => 9) none
    (d := holed.readDinode 0) rfl (by decide) (by decide)
    (show collectXads holed 0 _ = some (.ret holedXads) by decide) wellPlaced_holedXads
  refine ⟨s, f, hs, hf, ?_, ?_, ?_⟩
  · exact (hbytes 0 (by decide)).2.1 _ (List.mem_pair.mpr (Or.inl rfl)) (by decide)
  · exact (hbytes 600 (by decide)).2.2 (by decide)
  · exact (hbytes 1024 (by decide)).2.1 _ (List.mem_pair.mpr (Or.inr rfl)) (by decide)

end FileInode

end Jfsrec
