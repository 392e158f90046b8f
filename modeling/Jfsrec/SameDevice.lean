import Jfsrec.Interrupted
import Jfsrec.Volume

/-!
# One device, several runs

What a program finds in memory that it has not written may be different from run to run.  A file
whose extents lie in order gets the same content nevertheless: `Held.alike`.
-/

namespace Jfsrec

open Lib

namespace FileInode

variable {env env' : Env} {x : Xad} {xads : List Xad} {d : Dinode} {t : XtTree}
  {m n early byteOffset : ℕ} {b b' : Buffer}

/-! ### More fuel -/

theorem eachXad_mono {f g : Xad → List Xad → Option (Outcome Exn (List Xad))}
    (hfg : ∀ x v o, f x v = some o → g x v = some o) {o : Outcome Exn (List Xad)} {v : List Xad}
    (h : eachXad f xads v = some o) : eachXad g xads v = some o := by
  induction xads generalizing v with
  | nil => exact h
  | cons x xs ih =>
    rw [eachXad] at h ⊢
    cases hf : f x v with
    | none =>
      rw [hf] at h
      cases h
    | some r =>
      rw [hf] at h
      rw [hfg x v r hf]
      cases r with
      | ret v' => exact ih h
      | raise e => exact h
      | terminate => exact h

theorem getInternalXads_mono {f g : Xad → List Xad → Option (Outcome Exn (List Xad))}
    (hfg : ∀ x v o, f x v = some o → g x v = some o) {pos : ℕ} {o : Outcome Exn (List Xad)}
    {v : List Xad} (h : getInternalXads f b pos v = some o) :
    getInternalXads g b pos v = some o := by
  rw [getInternalXads] at h ⊢
  obtain ⟨r, hr, rfl⟩ := Option.map_eq_some_iff.mp h
  rw [eachXad_mono hfg hr]
  rfl

theorem getInternalXtpage_mono (hle : m ≤ n) {v : List Xad} {o : Outcome Exn (List Xad)}
    (h : getInternalXtpage env m x v = some o) : getInternalXtpage env n x v = some o := by
  induction m generalizing n x v o with
  | zero => cases h
  | succ m ih =>
    obtain ⟨n, rfl⟩ : ∃ k, n = k + 1 := ⟨n - 1, by omega⟩
    rw [getInternalXtpage] at h ⊢
    obtain ⟨r, hr, rfl⟩ := Option.map_eq_some_iff.mp h
    refine Option.map_eq_some_iff.mpr ⟨r, ?_, rfl⟩
    split at hr
    · exact hr
    · exact hr
    · split_ifs at hr ⊢
      · exact hr
      · exact hr
      · exact getInternalXads_mono (fun x v o => ih (by omega)) hr

theorem collectXads_mono (hle : m ≤ n) {o : Outcome Exn (List Xad)}
    (h : collectXads env m d = some o) : collectXads env n d = some o := by
  rw [collectXads] at h ⊢
  split_ifs at h ⊢
  · exact h
  · exact getInternalXads_mono (fun x v o => getInternalXtpage_mono hle) h

theorem saveFile_mono (hle : m ≤ n) {r : Outcome Exn Unit} {s : Saved}
    (h : saveFile env m early r byteOffset b = some s) :
    saveFile env n early r byteOffset b = some s := by
  have hopened : ∀ s, saveOpened env m early byteOffset b = some s →
      saveOpened env n early byteOffset b = some s := by
    intro s hs
    rw [saveOpened] at hs ⊢
    cases hd : env.getDinode byteOffset with
    | raise e => simpa only [hd] using hs
    | terminate => simpa only [hd] using hs
    | ret d =>
      simp only [hd] at hs ⊢
      split_ifs at hs ⊢
      · exact hs
      · cases hc : collectXads env m d with
        | none =>
          rw [hc] at hs
          cases hs
        | some o =>
          rw [hc] at hs
          rw [collectXads_mono hle hc]
          exact hs
  cases r with
  | ret u =>
    obtain ⟨s', hs', rfl⟩ := Option.map_eq_some_iff.mp h
    exact Option.map_eq_some_iff.mpr ⟨s', hopened s' hs', rfl⟩
  | raise e => exact h
  | terminate => exact h

theorem recover_mono (hle : m ≤ n) {errors : FsErrors} {now : ℤ} {file : Option OutFile}
    {r : Recovered} (h : recover env m early errors now byteOffset file b = some r) :
    recover env n early errors now byteOffset file b = some r := by
  obtain ⟨r', hr, rfl⟩ := Option.map_eq_some_iff.mp h
  refine Option.map_eq_some_iff.mpr ⟨r', ?_, rfl⟩
  rw [tryRecover] at hr ⊢
  split at hr
  · exact hr
  · exact hr
  · exact hr
  · obtain ⟨s, hs, rfl⟩ := Option.map_eq_some_iff.mp hr
    exact Option.map_eq_some_iff.mpr ⟨s, saveFile_mono hle hs, rfl⟩

theorem Held.collectXads_eq (h : Held env d t) {o : Outcome Exn (List Xad)}
    (hrun : collectXads env n d = some o) : o = .ret t.leafXads := by
  obtain ⟨fuel, hfuel⟩ := h.exists_fuel_collectXads
  have hmore := collectXads_mono (Nat.le_max_left n fuel) hrun
  exact Option.some.inj (hmore.symm.trans (hfuel _ (Nat.le_max_right n fuel)))

/-! ### Other memory -/

theorem nextindex_dinodeMemory (env env' : Env) (d : Dinode) :
    Xtpage.nextindex (dinodeMemory env d) rootPos
      = Xtpage.nextindex (dinodeMemory env' d) rootPos := rfl

section SameDevice

variable (hdev : env'.device = env.device)
include hdev

theorem copyPieces_device (fuel r : ℕ) (b : Buffer) :
    copyPieces env' x fuel r b = copyPieces env x fuel r b := by
  induction fuel generalizing r b with
  | zero => rfl
  | succ fuel ih =>
    simp only [copyPieces, extentBytes, devicePos, filePos, Env.readBytes, hdev, ih]
    rfl

theorem writeExtents_device (b : Buffer) : writeExtents env' xads b = writeExtents env xads b := by
  have hone : ∀ x b, writeExtentToFile env' x b = writeExtentToFile env x b := by
    intro x b
    rw [writeExtentToFile, writeExtentToFile, copyPieces_device hdev]
    simp only [pieceFuel, extentBytes, hdev]
  induction xads generalizing b with
  | nil => rfl
  | cons x xs ih => simp only [writeExtents, hone, ih]

theorem Held.of_device (h : Held env d t) : Held env' d t := by
  refine ⟨?_, h.size, hdev ▸ h.pages, ⟨fun x hx => ⟨?_, ?_⟩, h.placed.disjoint⟩⟩
  · rw [nextindex_dinodeMemory env' env]
    exact h.extents
  · rw [hdev]
    exact (h.placed.whole x hx).inside
  · rw [hdev]
    exact (h.placed.whole x hx).short

theorem getDinode_device (hslot : env.device.Slot byteOffset) :
    env'.getDinode byteOffset = env.getDinode byteOffset := by
  have hslot' : env'.device.Slot byteOffset := by
    rw [hdev]
    exact hslot
  rw [Env.getDinode_of_slot hslot, Env.getDinode_of_slot hslot', Env.readDinode_of_slot hslot,
    Env.readDinode_of_slot hslot', hdev]

theorem skips_device (hslot : env.device.Slot byteOffset) (file : Option OutFile) :
    skips env' .quiet byteOffset file = skips env .quiet byteOffset file := by
  simp only [skips, getDinode_device hdev hslot]

end SameDevice

/-- How an inode is saved that has no extents, or a tree of extents that lie in order. -/
theorem ops_of_saveFile (hdinode : env.getDinode byteOffset = .ret d)
    (hheld : 2 < Xtpage.nextindex (dinodeMemory env d) rootPos → Held env d t) {s : Saved}
    (hsave : saveFile env n early (.ret ()) byteOffset b = some s) :
    s.ops = some (if 2 < Xtpage.nextindex (dinodeMemory env d) rootPos then
      truncateAndClose early (writeExtents env t.leafXads b).writes d.diSize else []) := by
  by_cases hroot : 2 < Xtpage.nextindex (dinodeMemory env d) rootPos
  · have h := hheld hroot
    rw [if_pos hroot]
    cases hxads : collectXads env n d with
    | none =>
      rw [saveFile, saveOpened, hdinode] at hsave
      dsimp only at hsave
      rw [if_neg (by omega), hxads] at hsave
      cases hsave
    | some o =>
      obtain rfl := h.collectXads_eq hxads
      rw [saveFile_ret hdinode hroot hxads h.placed.whole] at hsave
      rw [← Option.some.inj hsave]
  · rw [if_neg hroot]
    rw [saveFile, saveOpened, hdinode] at hsave
    dsimp only at hsave
    rw [if_pos (by omega), Option.map_some] at hsave
    rw [← Option.some.inj hsave]

/-- **Runs on the same device give a file the same content**, if its extents lie in order. -/
theorem exists_alike_device (hslot : env.device.Slot byteOffset)
    (hdinode : env.getDinode byteOffset = .ret d)
    (hheld : 2 < Xtpage.nextindex (dinodeMemory env d) rootPos → Held env d t) (early : ℕ) :
    ∃ content, Alike (fun e _ => e.device = env.device) early byteOffset content := by
  refine ⟨SparseFile.empty.run (if 2 < Xtpage.nextindex (dinodeMemory env d) rootPos then
      truncateAndClose early (writeExtents env t.leafXads (fun _ => 0)).writes d.diSize else []),
    fun e _ e' _ he he' file => ?_, fun e n he now file b c f hskip hr => ?_⟩
  · rw [skips_device he hslot, skips_device he' hslot]
  · obtain ⟨s, ops, hsave, hops⟩ := exists_ops hskip hr
    rw [content_of_saved hskip hsave hops hr]
    have hdinode' : e.getDinode byteOffset = .ret d := by
      rw [getDinode_device he hslot, hdinode]
    have hops' := ops_of_saveFile hdinode' (fun hroot => (hheld hroot).of_device he) hsave
    rw [hops, nextindex_dinodeMemory e env, writeExtents_device he] at hops'
    rw [Option.some.inj hops']
    congr 1
    by_cases hroot : 2 < Xtpage.nextindex (dinodeMemory env d) rootPos
    · rw [if_pos hroot, if_pos hroot]
      congr 1
      exact (writeExtents_congr
        (fun x hx => ((hheld hroot).placed.whole x hx).piecesFit) b (fun _ => 0)).2
    · rw [if_neg hroot, if_neg hroot]

end FileInode

namespace Recoverer

variable {env : Env} {m n : ℕ} {now : ℤ} {ts : List Turn} {fs fs' : FileSystem} {b : Buffer}

theorem recover_mono (hle : m ≤ n) {s s' : FileSystem × Buffer} {t : Turn}
    (h : t.recover env m s = some s') : t.recover env n s = some s' := by
  rw [Turn.recover] at h ⊢
  split at h
  · exact h
  · rw [FileInode.recoverAt] at h ⊢
    cases hr : FileInode.recover env m t.early .quiet t.now t.ino.byteOffset (s.1.file t.path)
        s.2 with
    | none =>
      rw [hr] at h
      cases h
    | some r =>
      rw [hr] at h
      rw [FileInode.recover_mono hle hr]
      exact h
  · exact h

/-- **A run that goes through with little fuel** leaves the same with more. -/
theorem recoverTree_mono (hle : m ≤ n) (h : recoverTree env m now ts fs b = some fs') :
    recoverTree env n now ts fs b = some fs' := by
  obtain ⟨fs₁, hdirs, hrest⟩ := Option.bind_eq_some_iff.mp h
  obtain ⟨s, hs, rfl⟩ := Option.map_eq_some_iff.mp hrest
  exact Option.bind_eq_some_iff.mpr ⟨fs₁, hdirs, Option.map_eq_some_iff.mpr
    ⟨s, foldlM_mono (fun _ _ _ => recover_mono hle) hs, rfl⟩⟩

end Recoverer

end Jfsrec
