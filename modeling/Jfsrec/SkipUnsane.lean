import Jfsrec.ExtentSanity

/-!
# Skipping unsane extents

The option `--skip-unsane-extents` is read from the command line and kept, and the only
place that asked for it is in a comment: `save_file` copies what it has collected, sane or
not.

Without data an unsane file is left only if there is nothing that could be copied, which
`writes_eq_nil_iff` describes: the first extent of some length lies beyond the device.
-/

namespace Jfsrec

open Lib

structure Options where
  skipUnsaneXads : Bool

/-- `Options::init`; `count` says how often an option is on the command line. -/
def Options.init (count : String → ℕ) : Options where
  skipUnsaneXads := count "skip-unsane-extents" ≠ 0

/-- No byte of an extent is put into the file. -/
def Saved.NoData (s : Saved) : Prop :=
  ∀ ops, s.ops = some ops → ∀ w, FileOp.write w ∈ ops → w.data = []

namespace FileInode

/-- `save_file` in a run with the options `o`, none of which it looks at. -/
def saveFileWith (_o : Options) (env : Env) (fuel early : ℕ) (getFullPath : Outcome Exn Unit)
    (byteOffset : ℕ) (buffer : Buffer) : Option Saved :=
  saveFile env fuel early getFullPath byteOffset buffer

def HasExtents (env : Env) (fuel byteOffset : ℕ) (d : Dinode) (xads : List Xad) : Prop :=
  env.getDinode byteOffset = .ret d ∧ collectXads env fuel d = some (.ret xads) ∧ xads ≠ []

def Unsane (env : Env) (d : Dinode) (xads : List Xad) : Prop :=
  ∃ fuel, xadsSane env d fuel xads = some false

/-- The option is honoured: with it, no data of unsane files; without it, or for all other
files, what comes out without it. -/
def Honoured (o : Options) (env : Env) (fuel early : ℕ) (getFullPath : Outcome Exn Unit)
    (byteOffset : ℕ) (buffer : Buffer) : Prop :=
  ∀ d xads, HasExtents env fuel byteOffset d xads →
    (o.skipUnsaneXads = true → Unsane env d xads → ∀ s,
      saveFileWith o env fuel early getFullPath byteOffset buffer = some s → s.NoData) ∧
    ((o.skipUnsaneXads = false ∨ ¬ Unsane env d xads) →
      saveFileWith o env fuel early getFullPath byteOffset buffer =
        saveFileWith ⟨false⟩ env fuel early getFullPath byteOffset buffer)

/-- The first extent that has a length, in 32 bits, lies beyond the device. -/
def NothingToCopy (env : Env) (xads : List Xad) : Prop :=
  ∀ x, xads.find? (fun x => extentBytes env x ≠ 0) = some x →
    env.device.fssize < devicePos env x 0

variable {env : Env} {x : Xad} {d : Dinode} {xads : List Xad} {buffer : Buffer}
  {fuel early byteOffset : ℕ} {size : ℤ}

/-! ### When nothing is written -/

theorem writeExtentToFile_empty (h : extentBytes env x = 0) (buffer : Buffer) :
    writeExtentToFile env x buffer = ⟨.ret (), buffer, []⟩ := by
  rw [writeExtentToFile, copyPieces_of_le (by omega)]
  rfl

theorem writeExtentToFile_beyond (h : 0 < extentBytes env x)
    (hread : env.device.fssize < devicePos env x 0) (buffer : Buffer) :
    (writeExtentToFile env x buffer).writes = [] ∧
      ∃ e, (writeExtentToFile env x buffer).outcome = .raise e := by
  rw [writeExtentToFile, pieceFuel, copyPieces_of_beyond h (by omega)]
  exact ⟨rfl, _, rfl⟩

theorem writeExtentToFile_writes_ne_nil (h : 0 < extentBytes env x)
    (hread : ¬ env.device.fssize < devicePos env x 0) (buffer : Buffer) :
    (writeExtentToFile env x buffer).writes ≠ [] := by
  rw [writeExtentToFile, pieceFuel, copyPieces_of_within h (by omega)]
  exact List.cons_ne_nil _ _

/-- **Nothing is written exactly if the first extent with a length is beyond the device**, or
there is none. -/
theorem writes_eq_nil_iff (buffer : Buffer) :
    (writeExtents env xads buffer).writes = [] ↔ NothingToCopy env xads := by
  unfold NothingToCopy
  induction xads generalizing buffer with
  | nil => simp [writeExtents]
  | cons x xs ih =>
    rw [writeExtents]
    dsimp only
    by_cases hempty : extentBytes env x = 0
    · rw [writeExtentToFile_empty hempty, List.find?_cons_of_neg (by simpa using hempty)]
      exact ih buffer
    · rw [List.find?_cons_of_pos (by simpa using hempty)]
      have hpos : 0 < extentBytes env x := Nat.pos_of_ne_zero hempty
      by_cases hread : env.device.fssize < devicePos env x 0
      · obtain ⟨hnil, e, he⟩ := writeExtentToFile_beyond hpos hread buffer
        rw [he]
        exact ⟨fun _ y hy => Option.some.inj hy ▸ hread, fun _ => hnil⟩
      · have hne := writeExtentToFile_writes_ne_nil hpos hread buffer
        have hnot : ¬ ∀ y, some x = some y → env.device.fssize < devicePos env y 0 :=
          fun h => hread (h x rfl)
        cases (writeExtentToFile env x buffer).outcome with
        | ret _ => exact iff_of_false (fun h => hne (List.append_eq_nil_iff.mp h).1) hnot
        | raise _ => exact iff_of_false hne hnot
        | terminate => exact iff_of_false hne hnot

theorem data_ne_nil {w : Patch} (hw : w ∈ (writeExtents env xads buffer).writes) :
    w.data ≠ [] := by
  obtain ⟨x, _, b, hmem⟩ := exists_extent_of_mem hw
  obtain ⟨i, b', hi, _, rfl⟩ := exists_piece_of_mem hmem
  have hlen : (piece env x (0 + i * buffsize) b').data.length = _ := length_piece _ b'
  have hpos := pieceBytes_pos hi
  intro hnil
  rw [hnil] at hlen
  simp only [List.length_nil] at hlen
  omega

theorem not_mem_ftruncate {w : Patch} : FileOp.write w ∉ ftruncate size := by
  unfold ftruncate
  split_ifs <;> simp

/-- What is written before a file is truncated and closed puts data, unless it is nothing. -/
theorem truncateAndClose_noData {writes : List Patch} (hdata : ∀ w ∈ writes, w.data ≠ []) :
    (∀ w, FileOp.write w ∈ truncateAndClose early writes size → w.data = []) ↔ writes = [] := by
  unfold truncateAndClose
  split
  · rename_i hnone
    exact ⟨fun _ => List.getLast?_eq_none_iff.mp hnone,
      fun _ w hw => absurd hw not_mem_ftruncate⟩
  · rename_i l hl
    obtain ⟨front, rfl⟩ := List.getLast?_eq_some_iff.mp hl
    refine iff_of_false (fun h => ?_) (by simp)
    -- the last write gets into the file in two parts
    have htake : (l.take early).data = [] := h _ (by simp)
    have hdrop : (l.drop early).data = [] := h _ (by simp)
    refine hdata l (by simp) ?_
    rw [← List.take_append_drop early l.data]
    exact List.append_eq_nil_iff.mpr ⟨htake, hdrop⟩

theorem map_write_noData {writes : List Patch} (hdata : ∀ w ∈ writes, w.data ≠ []) :
    (∀ w, FileOp.write w ∈ writes.map FileOp.write → w.data = []) ↔ writes = [] := by
  constructor
  · intro h
    rw [List.eq_nil_iff_forall_not_mem]
    exact fun w hw => hdata w hw (h w (List.mem_map_of_mem hw))
  · rintro rfl w hw
    cases hw

theorem collectXads_of_nextindex (h : Xtpage.nextindex (dinodeMemory env d) rootPos ≤ 2) :
    collectXads env fuel d = some (.ret []) := by
  rw [collectXads, getLeafXads, getInternalXads, xads_eq_nil h]
  split_ifs <;> rfl

/-- **An opened file gets no data exactly if there is nothing to copy.** -/
theorem saveOpened_noData (early : ℕ) (buffer : Buffer)
    (hextents : HasExtents env fuel byteOffset d xads) :
    ∃ s, saveOpened env fuel early byteOffset buffer = some s ∧
      (s.NoData ↔ NothingToCopy env xads) := by
  obtain ⟨hdinode, hxads, hne⟩ := hextents
  have hroot : ¬ Xtpage.nextindex (dinodeMemory env d) rootPos ≤ 2 := by
    intro hle
    rw [collectXads_of_nextindex hle] at hxads
    injection hxads with hret
    injection hret with hnil
    exact hne hnil.symm
  have hdata : ∀ w ∈ (writeExtents env xads buffer).writes, w.data ≠ [] :=
    fun w hw => data_ne_nil hw
  have hiff : ∀ o b ops, Saved.NoData ⟨o, b, some ops⟩ ↔
      ∀ w, FileOp.write w ∈ ops → w.data = [] := fun o b ops =>
    ⟨fun h => h ops rfl, fun h ops' hops => Option.some.inj hops ▸ h⟩
  rw [saveOpened, hdinode]
  dsimp only
  rw [if_neg hroot, hxads, ← writes_eq_nil_iff buffer]
  dsimp only
  cases (writeExtents env xads buffer).outcome with
  | ret _ => exact ⟨_, rfl, (hiff _ _ _).trans (truncateAndClose_noData hdata)⟩
  | raise e => exact ⟨_, rfl, (hiff _ _ _).trans (map_write_noData hdata)⟩
  | terminate => exact ⟨_, rfl, (hiff _ _ _).trans (map_write_noData hdata)⟩

/-! ### The option -/

/-- **The option is honoured exactly** where it is not given, or no file is opened, or the
extents pass the check, or there is nothing to copy. -/
theorem honoured_iff (count : String → ℕ) (env : Env) (fuel early : ℕ)
    (getFullPath : Outcome Exn Unit) (byteOffset : ℕ) (buffer : Buffer) :
    Honoured (.init count) env fuel early getFullPath byteOffset buffer ↔
      (count "skip-unsane-extents" ≠ 0 → getFullPath = .ret () → ∀ d xads,
        HasExtents env fuel byteOffset d xads → Unsane env d xads → NothingToCopy env xads) := by
  have hgiven : (Options.init count).skipUnsaneXads = true ↔ count "skip-unsane-extents" ≠ 0 :=
    decide_eq_true_iff
  constructor
  · rintro h hcount rfl d xads hextents hunsane
    obtain ⟨s, hs, hiff⟩ := saveOpened_noData early buffer hextents
    have hnone := (h d xads hextents).1 (hgiven.mpr hcount) hunsane _
      (by rw [saveFileWith, saveFile, hs]; rfl)
    exact hiff.mp hnone
  · intro h d xads hextents
    refine ⟨fun hskip hunsane s hs => ?_, fun _ => rfl⟩
    unfold saveFileWith saveFile at hs
    cases getFullPath with
    | ret u =>
      obtain ⟨s', hs', hiff⟩ := saveOpened_noData early buffer hextents
      rw [hs'] at hs
      rw [← Option.some.inj hs]
      exact hiff.mpr (h (hgiven.mp hskip) rfl d xads hextents hunsane)
    | raise e =>
      rw [← Option.some.inj hs]
      exact fun ops hops => by cases hops
    | terminate =>
      rw [← Option.some.inj hs]
      exact fun ops hops => by cases hops

/-- A device with a file of two blocks, the second of which lies before the first. -/
def backwards : Env :=
  (Device.disk [(25, 4), (240, 2), (242, 4), (264, 1), (268, 3), (276, 1), (280, 1),
    (284, 2)]).zeroed

def backwardsXads : List Xad := [.of 0 1 3, .of 1 1 2]

theorem hasExtents_backwards : HasExtents backwards 0 0 (backwards.readDinode 0) backwardsXads :=
  ⟨rfl, by decide, by decide⟩

/-- **With the option, the file with its blocks in the wrong order is written.** -/
theorem not_honoured_backwards :
    ¬ Honoured (.init (fun _ => 1)) backwards 0 0 (.ret ()) 0 (fun _ => 0) := by
  intro h
  obtain ⟨s, hs, hiff⟩ :=
    saveOpened_noData 0 (fun _ => 0) hasExtents_backwards
  have hnone := (h _ _ hasExtents_backwards).1 rfl ⟨3, by decide⟩ _
    (by rw [saveFileWith, saveFile, hs]; rfl)
  have hfirst := hiff.mp hnone (.of 0 1 3) (by decide)
  exact absurd hfirst (by decide)

end FileInode

end Jfsrec
