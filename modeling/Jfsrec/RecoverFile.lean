import Jfsrec.CopiedBytes

/-!
# Recovering a file

`FileInode::recover` of `fileinode.cpp` skips a file that is there already, if its size is
`di_size` or its time of writing is later than `di_otime`; else it saves the file and sets the
time of writing to `di_mtime`.  Whatever a path operation or a read raises, it catches.

A file that a run was killed in is always skipped.  `completedByRerun_iff` says at which points, and
for which extents and bytes of the device, it is complete all the same.
-/

namespace Jfsrec

open Lib

def Dinode.diMtime (d : Dinode) : Timestruc := ⟨leBytes d.byte 72 4, leBytes d.byte 76 4⟩

/-- The path operations of `recover` and `create_dir`, by where they stand; `get_full_path` is
called by each of `recover`, `save_file`, `set_mtime` and `create_dir`. -/
inductive PathCall
  | recoverPath
  | fileExists
  | fileSize
  | lastWriteTime
  | savePath
  | mtimePath
  | setLastWriteTime
  | dirPath
  | createDirectories
deriving DecidableEq, Repr

/-- The operations that raise a `filesystem_error`, with its message. -/
abbrev FsErrors := PathCall → Option String

def FsErrors.call (errors : FsErrors) (c : PathCall) : Outcome Exn Unit :=
  match errors c with
  | some what => .raise (.filesystemError what)
  | none => .ret ()

def FsErrors.quiet : FsErrors := fun _ => none

structure OutFile where
  content : SparseFile
  writeTime : ℤ

/-- What `recover` does: how it ends, what the buffer of `write_extent_to_file` holds then,
and the file at the inode's path. -/
structure Recovered where
  outcome : Outcome Exn Unit
  buffer : Buffer
  file : Option OutFile

/-- `set_mode` up to `set_otime`, of which `set_mtime` alone does something.  The dinode has
been freed. -/
def Inode.setTimes (env : Env) (errors : FsErrors) (byteOffset : ℕ) : Outcome Exn Timestruc := do
  let d ← env.getDinode byteOffset
  errors.call .mtimePath
  errors.call .setLastWriteTime
  return d.diMtime

namespace FileInode

/-- The condition on which `recover` skips the file.  The size is compared as `uintmax_t`. -/
def skips (env : Env) (errors : FsErrors) (byteOffset : ℕ) (file : Option OutFile) :
    Outcome Exn Bool := do
  errors.call .recoverPath
  errors.call .fileExists
  match file with
  | none => return false
  | some f =>
      errors.call .fileSize
      let d ← env.getDinode byteOffset
      if f.content.size = leBytes d.byte 24 8 then return true
      errors.call .lastWriteTime
      return f.writeTime > d.diOtime.tvSec

def written (s : Saved) (now : ℤ) (file : Option OutFile) : Option OutFile :=
  match s.ops with
  | none => file
  | some ops => some ⟨SparseFile.empty.run ops, now⟩

/-- The `try` block of `recover`; `none` when the fuel runs out. -/
def tryRecover (env : Env) (fuel early : ℕ) (errors : FsErrors) (now : ℤ) (byteOffset : ℕ)
    (file : Option OutFile) (buffer : Buffer) : Option Recovered :=
  match skips env errors byteOffset file with
  | .raise e => some ⟨.raise e, buffer, file⟩
  | .terminate => some ⟨.terminate, buffer, file⟩
  | .ret true => some ⟨.ret (), buffer, file⟩
  | .ret false =>
      (saveFile env fuel early (errors.call .savePath) byteOffset buffer).map (fun s =>
        match s.outcome with
        | .ret _ =>
            match Inode.setTimes env errors byteOffset with
            | .ret t => ⟨.ret (), s.buffer,
                (written s now file).map (fun f => { f with writeTime := t.tvSec })⟩
            | .raise e => ⟨.raise e, s.buffer, written s now file⟩
            | .terminate => ⟨.terminate, s.buffer, written s now file⟩
        | o => ⟨o, s.buffer, written s now file⟩)

def recover (env : Env) (fuel early : ℕ) (errors : FsErrors) (now : ℤ) (byteOffset : ℕ)
    (file : Option OutFile) (buffer : Buffer) : Option Recovered :=
  (tryRecover env fuel early errors now byteOffset file buffer).map (fun r =>
    { r with outcome := r.outcome.handle Exn.caught (fun _ => .ret ()) })

variable {env : Env} {d : Dinode} {fuel early byteOffset : ℕ} {file : Option OutFile}
  {buffer : Buffer} {s : Saved} {ops : List FileOp} {now : ℤ} {xads : List Xad}

/-! ### Runs without errors of the file system -/

/-- A file that `recover` does not skip gets the content that `save_file` writes. -/
theorem recover_of_not_skips (now : ℤ)
    (hskip : skips env .quiet byteOffset file = .ret false)
    (hsave : saveFile env fuel early (.ret ()) byteOffset buffer = some s)
    (hops : s.ops = some ops) :
    ∃ r, recover env fuel early .quiet now byteOffset file buffer = some r ∧
      r.file.map OutFile.content = some (SparseFile.empty.run ops) := by
  have hwritten : written s now file = some ⟨SparseFile.empty.run ops, now⟩ := by
    rw [written, hops]
  have hcall : FsErrors.quiet.call .savePath = .ret () := rfl
  rw [recover, tryRecover, hskip]
  dsimp only
  rw [hcall, hsave]
  refine ⟨_, rfl, ?_⟩
  dsimp only
  split
  · split
    · rw [hwritten]
      rfl
    · rw [hwritten]
      rfl
    · rw [hwritten]
      rfl
  · rw [hwritten]
    rfl

/-- A file that was written after `di_otime` is skipped, if the dinode can be read. -/
theorem skips_of_later {f : OutFile}
    (hlater : ∀ d, env.getDinode byteOffset = .ret d → (d.diOtime.tvSec : ℤ) < f.writeTime) :
    skips env .quiet byteOffset (some f) = .ret true ∨
      ∃ what, skips env .quiet byteOffset (some f) = .raise (.invalidRead what) := by
  have hskips : skips env .quiet byteOffset (some f) = (env.getDinode byteOffset).bind (fun d =>
      if f.content.size = leBytes d.byte 24 8 then .ret true
      else .ret (f.writeTime > d.diOtime.tvSec)) := rfl
  rw [hskips]
  rcases env.getDinode_cases byteOffset with ⟨d, hd⟩ | ⟨what, hd⟩
  · rw [hd]
    refine Or.inl ?_
    show ite _ _ _ = _
    rw [decide_eq_true (hlater d hd), ite_self]
  · rw [hd]
    exact Or.inr ⟨what, rfl⟩

theorem recover_of_later {f : OutFile} (fuel early : ℕ) (now : ℤ) (buffer : Buffer)
    (hlater : ∀ d, env.getDinode byteOffset = .ret d → (d.diOtime.tvSec : ℤ) < f.writeTime) :
    ∃ r, recover env fuel early .quiet now byteOffset (some f) buffer = some r ∧
      r.file = some f := by
  rw [recover, tryRecover]
  rcases skips_of_later hlater with h | ⟨what, h⟩
  · rw [h]
    exact ⟨_, rfl, rfl⟩
  · rw [h]
    exact ⟨_, rfl, rfl⟩

/-! ### A second run -/

/-- Running `recover` on a file that is there leaves `content`, and skips nothing else. -/
structure RerunGives (env : Env) (byteOffset : ℕ) (f : OutFile) (content : SparseFile) :
    Prop where
  gives : ∀ fuel early now buffer, ∃ r,
    recover env fuel early .quiet now byteOffset (some f) buffer = some r ∧
      r.file.map OutFile.content = some content
  skips : skips env .quiet byteOffset (some f) = .ret true → f.content = content

/-- A second run leaves the content that the first one, on `file`, leaves when nothing kills
it. -/
def CompletedByRerun (env : Env) (fuel early byteOffset : ℕ) (file : Option OutFile)
    (buffer : Buffer) (killed : OutFile) : Prop :=
  ∀ now r content, recover env fuel early .quiet now byteOffset file buffer = some r →
    r.file.map OutFile.content = some content → RerunGives env byteOffset killed content

/-- The file after `n` bytes of operation `i`, at the time `now`. -/
def killedFile (ops : List FileOp) (i n : ℕ) (now : ℤ) : OutFile :=
  ⟨SparseFile.empty.run (SparseFile.done ops i n), now⟩

/-- As the second run skips the file, it has to be complete. -/
theorem completedByRerun_iff_run (i n : ℕ)
    (hskip : FileInode.skips env .quiet byteOffset file = .ret false)
    (hsave : saveFile env fuel early (.ret ()) byteOffset buffer = some s)
    (hops : s.ops = some ops)
    (hlater : ∀ d, env.getDinode byteOffset = .ret d → (d.diOtime.tvSec : ℤ) < now) :
    CompletedByRerun env fuel early byteOffset file buffer (killedFile ops i n now) ↔
      SparseFile.empty.run (SparseFile.done ops i n) = SparseFile.empty.run ops := by
  constructor
  · intro h
    obtain ⟨r, hr, hcontent⟩ := recover_of_not_skips now hskip hsave hops
    obtain ⟨r', hr', hgives⟩ := (h now r _ hr hcontent).gives fuel early now buffer
    obtain ⟨r'', hr'', hsame⟩ := recover_of_later (f := killedFile ops i n now) fuel early now
      buffer hlater
    obtain rfl := Option.some.inj (hr'.symm.trans hr'')
    rw [hsame] at hgives
    exact Option.some.inj hgives
  · intro h t r content hr hcontent
    obtain ⟨r', hr', hcontent'⟩ := recover_of_not_skips t hskip hsave hops
    obtain rfl := Option.some.inj (hr.symm.trans hr')
    obtain rfl := Option.some.inj (hcontent.symm.trans hcontent')
    refine ⟨fun fuel' early' now' buffer' => ?_, fun _ => h⟩
    obtain ⟨r'', hr'', hsame⟩ := recover_of_later (f := killedFile ops i n now) fuel' early' now'
      buffer' hlater
    refine ⟨r'', hr'', ?_⟩
    rw [hsame, ← h]
    rfl

/-- The operations on a file with extents: those of its bytes, which may be cut off. -/
theorem ops_of_xads (hsave : saveFile env fuel early (.ret ()) byteOffset buffer = some s)
    (hops : s.ops = some ops) (hdinode : env.getDinode byteOffset = .ret d)
    (hroot : 2 < Xtpage.nextindex (dinodeMemory env d) rootPos)
    (hxads : collectXads env fuel d = some (.ret xads)) :
    ∃ front back, ops = SparseFile.cutBetween front (cutSize env xads d.diSize) back ∧
      front.flatMap Patch.puts ++ back.flatMap Patch.puts = fileBytes env xads buffer ∧
      (AllReadable env xads → back.flatMap Patch.puts = lateBytes env xads buffer early) ∧
      (back.flatMap Patch.puts).Pairwise (fun c e => c.2 < e.2) := by
  obtain ⟨hbytes, hout⟩ := puts_writeExtents env xads buffer
  by_cases hall : AllReadable env xads
  · rw [saveFile_of_xads hdinode (by omega) hxads (hout.mpr hall)] at hsave
    obtain rfl := Option.some.inj hsave
    obtain rfl := Option.some.inj hops
    obtain ⟨front, back, heq, hputs, hlate, hasc⟩ := truncateAndClose_eq hall early d.diSize
    exact ⟨front, back, heq, hputs, fun _ => hlate, hasc⟩
  · have hraise := mt hout.mp hall
    have hopened : saveOpened env fuel early byteOffset buffer
        = some ⟨(writeExtents env xads buffer).outcome, (writeExtents env xads buffer).buffer,
          some ((writeExtents env xads buffer).writes.map .write)⟩ := by
      rw [saveOpened, hdinode]
      dsimp only
      rw [if_neg (by omega), hxads]
      dsimp only
      split
      · rename_i hret
        exact absurd hret hraise
      · rfl
    rw [saveFile, hopened] at hsave
    obtain rfl := Option.some.inj hsave
    obtain rfl := Option.some.inj hops
    refine ⟨(writeExtents env xads buffer).writes, [], ?_, ?_, fun h => absurd h hall,
      List.Pairwise.nil⟩
    · rw [cutSize, if_neg (fun h => hall h.1)]
      exact (List.append_nil _).symm
    · rw [← hbytes]
      exact List.append_nil _

theorem ops_of_no_xads (hsave : saveFile env fuel early (.ret ()) byteOffset buffer = some s)
    (hops : s.ops = some ops) (hnone : ∀ d xads, env.getDinode byteOffset = .ret d →
      2 < Xtpage.nextindex (dinodeMemory env d) rootPos →
        collectXads env fuel d ≠ some (.ret xads)) : ops = [] := by
  have hopened : ∀ t, saveOpened env fuel early byteOffset buffer = some t → t.ops = some [] := by
    intro t ht
    rw [saveOpened] at ht
    cases hdinode : env.getDinode byteOffset with
    | raise e =>
      rw [hdinode] at ht
      obtain rfl := Option.some.inj ht
      rfl
    | terminate =>
      rw [hdinode] at ht
      obtain rfl := Option.some.inj ht
      rfl
    | ret d =>
      rw [hdinode] at ht
      dsimp only at ht
      split at ht
      · obtain rfl := Option.some.inj ht
        rfl
      · rename_i hroot
        cases hxads : collectXads env fuel d with
        | none =>
          rw [hxads] at ht
          cases ht
        | some o =>
          rw [hxads] at ht
          cases o with
          | ret xads => exact absurd hxads (hnone d xads hdinode (by omega))
          | raise e =>
            obtain rfl := Option.some.inj ht
            rfl
          | terminate =>
            obtain rfl := Option.some.inj ht
            rfl
  obtain ⟨t, ht, rfl⟩ := Option.map_eq_some_iff.mp hsave
  exact Option.some.inj (hops.symm.trans (hopened t ht))

/-- **A run that is killed in operation `i` of `save_file`, after `n` bytes of it, is made good
by a second one exactly if the bytes of the extents that are missing do not show.**  When it was
killed `m` bytes had come to the file, and `isCut` is whether it had been cut.  Where the extents
lie in the device and do not overlap, this is so exactly if the bytes behind the first `m` are zeros
below `di_size`, and the file has its length. -/
theorem completedByRerun_iff {m : ℕ} {isCut : Bool} (i n : ℕ)
    (hskip : FileInode.skips env .quiet byteOffset file = .ret false)
    (hsave : saveFile env fuel early (.ret ()) byteOffset buffer = some s)
    (hops : s.ops = some ops) (hcount : SparseFile.putCount (SparseFile.done ops i n) = m)
    (hcut : SparseFile.isCut (SparseFile.done ops i n) = isCut)
    (hlater : ∀ d, env.getDinode byteOffset = .ret d → (d.diOtime.tvSec : ℤ) < now) :
    (∀ d xads, env.getDinode byteOffset = .ret d →
      2 < Xtpage.nextindex (dinodeMemory env d) rootPos →
      collectXads env fuel d = some (.ret xads) →
      (CompletedByRerun env fuel early byteOffset file buffer (killedFile ops i n now) ↔
        SparseFile.LacksNothing (cutSize env xads d.diSize) (fileBytes env xads buffer)
          (lateBytes env xads buffer early) m isCut) ∧
      (0 ≤ d.diSize → WellPlaced env xads →
        (CompletedByRerun env fuel early byteOffset file buffer (killedFile ops i n now) ↔
          OnlyZerosMissing env xads d.diSize early m isCut))) ∧
    ((∀ d xads, env.getDinode byteOffset = .ret d →
      2 < Xtpage.nextindex (dinodeMemory env d) rootPos →
        collectXads env fuel d ≠ some (.ret xads)) →
      CompletedByRerun env fuel early byteOffset file buffer (killedFile ops i n now)) := by
  subst hcount hcut
  have hrun := completedByRerun_iff_run (s := s) i n hskip hsave hops hlater
  refine ⟨fun d xads hdinode hroot hxads => ?_, fun hnone => ?_⟩
  · obtain ⟨front, back, rfl, hputs, hlate, hasc⟩ := ops_of_xads hsave hops hdinode hroot hxads
    have hiff := SparseFile.run_done_eq_iff front (cutSize env xads d.diSize) hasc i n
    have hgeneral : CompletedByRerun env fuel early byteOffset file buffer
        (killedFile (SparseFile.cutBetween front (cutSize env xads d.diSize) back) i n now) ↔
        SparseFile.LacksNothing (cutSize env xads d.diSize) (fileBytes env xads buffer)
          (lateBytes env xads buffer early)
          (SparseFile.putCount (SparseFile.done
            (SparseFile.cutBetween front (cutSize env xads d.diSize) back) i n))
          (SparseFile.isCut (SparseFile.done
            (SparseFile.cutBetween front (cutSize env xads d.diSize) back) i n)) := by
      rw [hrun, hiff, hputs]
      by_cases hall : AllReadable env xads
      · rw [hlate hall]
      · rw [cutSize, if_neg (fun h => hall h.1)]
        rfl
    refine ⟨hgeneral, fun hsize hplaced => ?_⟩
    rw [hgeneral]
    apply hplaced.lacksNothing_iff hsize
    have hall := allReadable_of_whole hplaced.whole
    have hcut : cutSize env xads d.diSize = some d.diSize.toNat := if_pos ⟨hall, hsize⟩
    rw [hcut]
    intro hno
    rw [← hlate hall, ← hputs]
    exact SparseFile.suffix_drop_done hno
  · rw [hrun, ops_of_no_xads hsave hops hnone]
    rfl

def holedOps : List FileOp :=
  truncateAndClose 0 (writeExtents holed holedXads (fun _ => 0)).writes 1300

theorem saveFile_holed :
    ∃ s, saveFile holed 0 0 (.ret ()) 0 (fun _ => 0) = some s ∧ s.ops = some holedOps :=
  ⟨_, saveFile_ret (d := holed.readDinode 0) rfl (by decide) (by decide)
    wellPlaced_holedXads.whole, rfl⟩

theorem later_holed : ∀ d, holed.getDinode 0 = .ret d → (d.diOtime.tvSec : ℤ) < 1 := by
  intro d hd
  obtain rfl : holed.readDinode 0 = d := Outcome.ret.inj hd
  decide

def filledOps : List FileOp :=
  truncateAndClose 0 (writeExtents filled holedXads (fun _ => 0)).writes 1536

theorem wellPlaced_filled : WellPlaced filled holedXads :=
  ⟨fun x hx => ⟨(wellPlaced_holedXads.whole x hx).1, (wellPlaced_holedXads.whole x hx).2⟩,
    wellPlaced_holedXads.2⟩

/-- A run that is killed after the first byte of the last block needs no second one, as the rest of
the block are zeros. -/
theorem completedByRerun_filled :
    CompletedByRerun filled 0 0 0 none (fun _ => 0) (killedFile filledOps 3 1 1) := by
  have hsave : saveFile filled 0 0 (.ret ()) 0 (fun _ => 0) = some ⟨.ret (), _, some filledOps⟩ :=
    saveFile_ret (d := filled.readDinode 0) rfl (by decide) collectXads_filled
      wellPlaced_filled.whole
  have hlater : ∀ d, filled.getDinode 0 = .ret d → (d.diOtime.tvSec : ℤ) < 1 := by
    intro d hd
    obtain rfl : filled.readDinode 0 = d := Outcome.ret.inj hd
    decide
  have hcount : SparseFile.putCount (SparseFile.done filledOps 3 1) = 513 := by decide +kernel
  have hcut : SparseFile.isCut (SparseFile.done filledOps 3 1) = true := by decide +kernel
  refine (((completedByRerun_iff 3 1 rfl hsave rfl hcount hcut hlater).1 _ _ rfl (by decide)
    collectXads_filled).2 (by decide) wellPlaced_filled).mpr ?_
  refine ⟨by decide +kernel, ?_⟩
  rw [if_pos rfl]
  decide +kernel

/-- **A run that is killed before it has written anything** leaves an empty file, which a second
run skips. -/
theorem not_completedByRerun_holed :
    ¬ CompletedByRerun holed 0 0 0 none (fun _ => 0) (killedFile holedOps 0 0 1) := by
  intro h
  obtain ⟨s, hsave, hops⟩ := saveFile_holed
  have hsame := (completedByRerun_iff_run 0 0 rfl hsave hops later_holed).mp h
  exact absurd (congrArg SparseFile.size hsame) (by decide +kernel)

end FileInode

end Jfsrec
