import Jfsrec.SaveFile
import Jfsrec.ExtentSizes

/-!
# The length of a saved file

`save_file` truncates the file to `di_size` after the last extent.  What `stdio` still holds
of the last write then goes to the file when it is closed, behind the end if the last extent
ends there.  And a file without extents is closed before it comes to the truncation.

`recoveredLength_iff` says which files get the length `di_size`.
-/

namespace Jfsrec

open Lib

namespace FileInode

variable {env : Env} {d : Dinode} {x : Xad} {xads : List Xad} {writes : List Patch}
  {fuel early byteOffset : ℕ} {size : ℤ} {buffer : Buffer} {w : Patch}

/-! ### The size after the truncation -/

/-- **The last write decides**: if some of it is left when the file is truncated, and it
ends behind the size, then the file ends where it ends. -/
theorem size_truncateAndClose (f : SparseFile) (hlast : writes.getLast? = some w)
    (hsize : 0 ≤ size) :
    ((f.run (truncateAndClose early writes size)).size : ℤ) =
      if early < w.data.length then max size ↑(w.pos + w.data.length) else size := by
  unfold truncateAndClose ftruncate
  rw [hlast, if_neg (by omega), SparseFile.size_run, List.foldl_append]
  show ((SparseFile.sizeAfter size.toNat (.write (w.drop early)) : ℕ) : ℤ) = _
  rw [SparseFile.sizeAfter, Patch.drop]
  dsimp only
  by_cases hearly : early < w.data.length
  · have hne : w.data.drop early ≠ [] := by
      rw [ne_eq, List.drop_eq_nil_iff]
      omega
    rw [if_neg hne, if_pos hearly, List.length_drop]
    omega
  · rw [if_pos (List.drop_eq_nil_iff.mpr (by omega)), if_neg hearly]
    omega

theorem size_truncateAndClose_nil (f : SparseFile) (hnil : writes = []) (hsize : 0 ≤ size) :
    ((f.run (truncateAndClose early writes size)).size : ℤ) = size := by
  subst hnil
  show ((f.run (ftruncate size)).size : ℤ) = size
  rw [ftruncate, if_neg (by omega)]
  show (size.toNat : ℤ) = size
  omega

/-! ### Where the last write ends -/

def Copies (env : Env) (x : Xad) : Prop := 0 < extentBytes env x

instance (env : Env) (x : Xad) : Decidable (Copies env x) := inferInstanceAs (Decidable (_ < _))

def extentEnd (env : Env) (x : Xad) : ℕ := filePos env x (extentBytes env x)

/-- Where the last extent ends that the copy takes to have bytes. -/
def lastEnd (env : Env) (xads : List Xad) : Option ℕ :=
  ((xads.filter (fun x => Copies env x)).getLast?).map (extentEnd env)

def lastPiece (env : Env) (x : Xad) : ℕ :=
  extentBytes env x - (extentBytes env x - 1) / buffsize * buffsize

def lastCount (env : Env) (xads : List Xad) : ℕ :=
  ((xads.filter (fun x => Copies env x)).getLast?).elim 0 (lastPiece env)

theorem writeExtentToFile_eq_nil (h : ¬ Copies env x) :
    (writeExtentToFile env x buffer).writes = [] := by
  unfold Copies at h
  unfold writeExtentToFile
  rw [copyPieces_of_le (by omega)]

theorem writeExtentToFile_getLast (h : Copies env x)
    (hret : (writeExtentToFile env x buffer).outcome = .ret ()) :
    ((writeExtentToFile env x buffer).writes.getLast?).map (fun w => (w.stop, w.data.length))
      = some (extentEnd env x, lastPiece env x) := by
  have hcons := writeExtentToFile_consecutive hret
  have hne : (writeExtentToFile env x buffer).writes ≠ [] := by
    intro hnil
    rw [hnil] at hcons
    have heq : x.offset * env.device.blocksize.bytes
        = x.offset * env.device.blocksize.bytes + extentBytes env x := hcons
    unfold Copies at h
    omega
  obtain ⟨w, hw, hstop⟩ := Option.map_eq_some_iff.mp (hcons.getLast hne)
  obtain ⟨i, b, hi, _, rfl⟩ := exists_piece_of_mem (List.mem_of_getLast? hw)
  rw [hw, Option.map_some, hstop, length_piece]
  -- the piece begins at a multiple of its size, and ends with the extent
  have hend : filePos env x (0 + i * buffsize) + pieceBytes (extentBytes env x) (0 + i * buffsize)
      = x.offset * env.device.blocksize.bytes + extentBytes env x := by
    rw [← hstop, Patch.stop, length_piece]
    rfl
  have hpos := pieceBytes_pos hi
  have hle := pieceBytes_le_buffsize (extentBytes env x) (0 + i * buffsize)
  have hcount : pieceBytes (extentBytes env x) (0 + i * buffsize) = lastPiece env x := by
    unfold filePos at hend
    unfold lastPiece
    unfold buffsize at *
    omega
  rw [hcount]
  rfl

/-- **The last write of all ends where the last extent ends** that is not empty. -/
theorem writeExtents_last (hret : (writeExtents env xads buffer).outcome = .ret ()) :
    ((writeExtents env xads buffer).writes.getLast?).map (fun w => (w.stop, w.data.length))
      = ((xads.filter (fun x => Copies env x)).getLast?).map
          (fun x => (extentEnd env x, lastPiece env x)) := by
  induction xads generalizing buffer with
  | nil => rfl
  | cons x xs ih =>
    rw [writeExtents] at hret ⊢
    dsimp only at hret ⊢
    rcases writeExtentToFile_outcome env x buffer with hx | ⟨what, hx⟩
    · rw [hx] at hret ⊢
      dsimp only at hret ⊢
      rw [List.getLast?_append, Option.map_or, ih hret]
      by_cases hcopies : Copies env x
      · rw [writeExtentToFile_getLast hcopies hx, List.filter_cons_of_pos (by simpa using hcopies),
          List.getLast?_cons]
        cases (xs.filter (fun x => Copies env x)).getLast? with
        | none => rfl
        | some y => rfl
      · rw [writeExtentToFile_eq_nil hcopies, List.filter_cons_of_neg (by simpa using hcopies),
          List.getLast?_nil, Option.map_none, Option.or_none]
    · rw [hx] at hret
      dsimp only at hret
      rw [hx] at hret
      cases hret

theorem writeExtents_getLast (hret : (writeExtents env xads buffer).outcome = .ret ()) :
    ((writeExtents env xads buffer).writes.getLast?).map Patch.stop = lastEnd env xads := by
  have hlast := congrArg (Option.map Prod.fst) (writeExtents_last hret)
  rw [Option.map_map, Option.map_map] at hlast
  exact hlast

theorem writeExtents_lastCount (hret : (writeExtents env xads buffer).outcome = .ret ()) :
    (writeExtents env xads buffer).writes.getLast?.elim 0 (fun w => w.data.length)
      = lastCount env xads := by
  have hlast := congrArg (fun o => Option.elim o 0 Prod.snd) (writeExtents_last hret)
  rw [Option.elim_map, Option.elim_map] at hlast
  exact hlast

/-- The length of the saved file, which the bytes that come late may make longer. -/
def savedSize (env : Env) (xads : List Xad) (early : ℕ) (size : ℤ) : ℤ :=
  if early < lastCount env xads then max size ((lastEnd env xads).getD 0 : ℕ) else size

/-- `stdio` holds the byte back until the file is closed. -/
def Late (env : Env) (xads : List Xad) (early k : ℕ) : Prop :=
  ∃ stop ∈ lastEnd env xads, stop + early ≤ k + lastCount env xads ∧ k < stop

instance (env : Env) (xads : List Xad) (early k : ℕ) : Decidable (Late env xads early k) :=
  inferInstanceAs (Decidable (∃ stop ∈ lastEnd env xads, _ ∧ _))

theorem size_writeExtents (hret : (writeExtents env xads buffer).outcome = .ret ())
    (early : ℕ) (hsize : 0 ≤ size) : ((SparseFile.empty.run
      (truncateAndClose early (writeExtents env xads buffer).writes size)).size : ℤ)
        = savedSize env xads early size := by
  rw [savedSize, ← writeExtents_lastCount hret, ← writeExtents_getLast hret]
  cases hw : (writeExtents env xads buffer).writes.getLast? with
  | none =>
    rw [size_truncateAndClose_nil _ (List.getLast?_eq_none_iff.mp hw) hsize]
    exact (if_neg (Nat.not_lt_zero _)).symm
  | some w =>
    rw [size_truncateAndClose _ hw hsize]
    rfl

theorem writeExtents_length_pos (hw : w ∈ (writeExtents env xads buffer).writes) :
    0 < w.data.length := by
  obtain ⟨x, _, b, hx⟩ := exists_extent_of_mem hw
  obtain ⟨i, b', hi, _, rfl⟩ := exists_piece_of_mem hx
  rw [length_piece]
  exact pieceBytes_pos hi

/-- The last extent that is not empty ends before the size, or with it. -/
def EndsWithin (env : Env) (xads : List Xad) (size : ℤ) : Prop :=
  ∀ stop ∈ lastEnd env xads, (stop : ℤ) ≤ size

instance (env : Env) (xads : List Xad) (size : ℤ) : Decidable (EndsWithin env xads size) :=
  inferInstanceAs (Decidable (∀ stop ∈ lastEnd env xads, (stop : ℤ) ≤ size))

theorem size_writeExtents_iff (hret : (writeExtents env xads buffer).outcome = .ret ())
    (hsize : 0 ≤ size) :
    (∀ early, ((SparseFile.empty.run
        (truncateAndClose early (writeExtents env xads buffer).writes size)).size : ℤ) = size) ↔
      EndsWithin env xads size := by
  have hlast := writeExtents_getLast hret
  unfold EndsWithin
  rw [← hlast]
  cases hw : (writeExtents env xads buffer).writes.getLast? with
  | none =>
    refine ⟨fun _ _ h => (by cases h), fun _ early => ?_⟩
    exact size_truncateAndClose_nil _ (List.getLast?_eq_none_iff.mp hw) hsize
  | some w =>
    have hpos := writeExtents_length_pos (List.mem_of_getLast? hw)
    rw [Option.map_some]
    refine ⟨fun h stop hstop => ?_, fun h early => ?_⟩
    · -- nothing of the write has left the buffer
      obtain rfl := Option.some.inj hstop
      have hnone := h 0
      rw [size_truncateAndClose _ hw hsize, if_pos hpos] at hnone
      unfold Patch.stop
      omega
    · have hle : ((w.pos + w.data.length : ℕ) : ℤ) ≤ size := h w.stop rfl
      rw [size_truncateAndClose _ hw hsize]
      split <;> omega

/-! ### The length of the file -/

/-- The closed file has `di_size` bytes, whatever part of the last write the buffer of
`stdio` has let go when the file is truncated. -/
def RecoveredLength (env : Env) (fuel byteOffset : ℕ) (buffer : Buffer) (d : Dinode) : Prop :=
  ∀ early s, saveFile env fuel early (.ret ()) byteOffset buffer = some s →
    ∃ f, s.content none = some f ∧ (f.size : ℤ) = d.diSize

/-- `save_file` returns, and nothing has raised an exception. -/
def SavesQuietly (env : Env) (fuel byteOffset : ℕ) (buffer : Buffer) : Prop :=
  ∃ s, saveOpened env fuel 0 byteOffset buffer = some s ∧ s.outcome = .ret ()

/-- The inode has no extents and no bytes; or it has extents, and the last one that is not
empty does not end behind `di_size`. -/
def SizeReached (env : Env) (fuel : ℕ) (d : Dinode) : Prop :=
  if Xtpage.nextindex (dinodeMemory env d) rootPos ≤ 2 then d.diSize = 0
  else ∀ xads, collectXads env fuel d = some (.ret xads) → EndsWithin env xads d.diSize

/-- A file whose root has no entries is left empty. -/
theorem saveFile_of_no_entries (hdinode : env.getDinode byteOffset = .ret d)
    (hroot : Xtpage.nextindex (dinodeMemory env d) rootPos ≤ 2) :
    saveFile env fuel early (.ret ()) byteOffset buffer = some ⟨.ret (), buffer, some []⟩ := by
  rw [saveFile, saveOpened, hdinode]
  dsimp only
  rw [if_pos hroot]
  rfl

theorem SavesQuietly.exists_xads (h : SavesQuietly env fuel byteOffset buffer)
    (hdinode : env.getDinode byteOffset = .ret d)
    (hroot : ¬ Xtpage.nextindex (dinodeMemory env d) rootPos ≤ 2) :
    ∃ xads, collectXads env fuel d = some (.ret xads) ∧
      (writeExtents env xads buffer).outcome = .ret () := by
  obtain ⟨s, hs, hret⟩ := h
  rw [saveOpened, hdinode] at hs
  dsimp only at hs
  rw [if_neg hroot] at hs
  cases hxads : collectXads env fuel d with
  | none =>
    rw [hxads] at hs
    cases hs
  | some o =>
    rw [hxads] at hs
    cases o with
    | ret xads =>
      refine ⟨xads, rfl, ?_⟩
      dsimp only at hs
      split at hs
      · rename_i hc
        exact hc
      · obtain rfl := Option.some.inj hs
        exact hret
    | raise e =>
      obtain rfl := Option.some.inj hs
      cases hret
    | terminate =>
      obtain rfl := Option.some.inj hs
      cases hret

/-- With the extents at hand, their last one decides. -/
theorem recoveredLength_of_xads (hdinode : env.getDinode byteOffset = .ret d)
    (hsize : 0 ≤ d.diSize) (hroot : ¬ Xtpage.nextindex (dinodeMemory env d) rootPos ≤ 2)
    (hxads : collectXads env fuel d = some (.ret xads))
    (hret : (writeExtents env xads buffer).outcome = .ret ()) :
    RecoveredLength env fuel byteOffset buffer d ↔ EndsWithin env xads d.diSize := by
  rw [← size_writeExtents_iff hret hsize]
  unfold RecoveredLength
  simp only [saveFile_of_xads hdinode hroot hxads hret]
  refine ⟨fun h early => ?_, fun h early s hs => ?_⟩
  · obtain ⟨f, hf, heq⟩ := h early _ rfl
    obtain rfl := Option.some.inj hf
    exact heq
  · obtain rfl := Option.some.inj hs
    exact ⟨_, rfl, h early⟩

theorem recoveredLength_of_no_entries (hdinode : env.getDinode byteOffset = .ret d)
    (hroot : Xtpage.nextindex (dinodeMemory env d) rootPos ≤ 2) :
    RecoveredLength env fuel byteOffset buffer d ↔ d.diSize = 0 := by
  unfold RecoveredLength
  simp only [saveFile_of_no_entries hdinode hroot]
  refine ⟨fun h => ?_, fun h early s hs => ?_⟩
  · obtain ⟨f, hf, heq⟩ := h 0 _ rfl
    obtain rfl := Option.some.inj hf
    exact heq.symm
  · obtain rfl := Option.some.inj hs
    exact ⟨.empty, rfl, h.symm⟩

/-- **A file gets the length `di_size` exactly if its last extent does not end behind it**,
or, without extents, if it is empty. -/
theorem recoveredLength_iff (hdinode : env.getDinode byteOffset = .ret d)
    (hsize : 0 ≤ d.diSize) (hquiet : SavesQuietly env fuel byteOffset buffer) :
    RecoveredLength env fuel byteOffset buffer d ↔ SizeReached env fuel d := by
  unfold SizeReached
  by_cases hroot : Xtpage.nextindex (dinodeMemory env d) rootPos ≤ 2
  · rw [if_pos hroot]
    exact recoveredLength_of_no_entries hdinode hroot
  · obtain ⟨xads, hxads, hret⟩ := hquiet.exists_xads hdinode hroot
    rw [if_neg hroot, recoveredLength_of_xads hdinode hsize hroot hxads hret, hxads]
    refine ⟨fun h xads' hxads' => ?_, fun h => h xads rfl⟩
    obtain rfl := Outcome.ret.inj (Option.some.inj hxads')
    exact h

/-- The file of `holed`, with `di_size` at the end of its last block. -/
def filled : Env :=
  (Device.disk [(25, 6), (240, 2), (242, 4), (264, 1), (268, 2), (276, 2), (280, 1), (284, 3),
    (1024, 7), (1536, 8)]).zeroed

theorem collectXads_filled :
    collectXads filled 0 (filled.readDinode 0) = some (.ret holedXads) := by decide

theorem recoveredLength_filled :
    RecoveredLength filled 0 0 (fun _ => 9) (filled.readDinode 0) := by
  have hret : (writeExtents filled holedXads (fun _ => 9)).outcome = .ret () := by
    decide +kernel
  have hquiet : SavesQuietly filled 0 0 (fun _ => 9) :=
    ⟨_, saveOpened_of_xads rfl (by decide) collectXads_filled hret, rfl⟩
  refine (recoveredLength_iff rfl (by decide) hquiet).mpr ?_
  unfold SizeReached
  rw [if_neg (by decide), collectXads_filled]
  intro xads hxads
  obtain rfl := Outcome.ret.inj (Option.some.inj hxads)
  decide

/-- **A file of 1300 bytes becomes one of 1536**, if no byte of its last block has left the
buffer when the file is truncated. -/
theorem not_recoveredLength_holed :
    0 ≤ (holed.readDinode 0).diSize ∧ SavesQuietly holed 0 0 (fun _ => 9) ∧
      ¬ RecoveredLength holed 0 0 (fun _ => 9) (holed.readDinode 0) := by
  have hxads : collectXads holed 0 (holed.readDinode 0) = some (.ret holedXads) := by decide
  have hret := writeExtents_ret wellPlaced_holedXads.whole (fun _ => 9)
  refine ⟨by decide, ⟨_, saveOpened_of_xads rfl (by decide) hxads hret, rfl⟩, ?_⟩
  rw [recoveredLength_of_xads rfl (by decide) (by decide) hxads hret]
  decide

/-- A file of 1300 bytes without extents. -/
def sparse : Env := (Device.disk [(24, 0x14), (25, 5), (240, 2), (242, 2)]).zeroed

/-- **It becomes an empty file.** -/
theorem not_recoveredLength_sparse :
    0 ≤ (sparse.readDinode 0).diSize ∧ SavesQuietly sparse 0 0 (fun _ => 9) ∧
      ¬ RecoveredLength sparse 0 0 (fun _ => 9) (sparse.readDinode 0) := by
  refine ⟨by decide, ⟨_, rfl, rfl⟩, ?_⟩
  rw [recoveredLength_of_no_entries rfl (by decide)]
  decide

end FileInode

end Jfsrec
