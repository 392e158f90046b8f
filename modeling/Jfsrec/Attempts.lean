import Jfsrec.RecoverFile

/-!
# One inode after another

`recover_dirtree` creates the directories and `recover_iterative` recovers the inodes, each in
a loop without handlers: what `create_dir` or `recover` lets out ends the program, and the
inodes behind are never tried.  `FileInode::recover` catches what path operations and reads
raise, except where `get_internal_xtpage` has turned it into the end of the program;
`DirInode::recover` and `create_dir` catch nothing.

`allAttempted_iff` says when all inodes are tried.
-/

namespace Jfsrec

open Lib

/-! ### What the parts raise -/

theorem FsErrors.call_eq_ret {errors : FsErrors} {c : PathCall} {u : Unit} :
    errors.call c = .ret u ↔ errors c = none := by
  unfold call
  split
  · rename_i what h
    simp [h]
  · rename_i h
    simp [h]

theorem FsErrors.call_raisesOnly (errors : FsErrors) (c : PathCall) :
    (errors.call c).RaisesOnly Exn.caught := by
  unfold call
  split
  · exact rfl
  · trivial

theorem Env.getDinode_raisesOnly (env : Env) (byteOffset : ℕ) :
    (env.getDinode byteOffset).RaisesOnly Exn.caught := by
  rcases env.getDinode_cases byteOffset with ⟨d, hd⟩ | ⟨what, hd⟩
  · rw [hd]
    trivial
  · rw [hd]
    exact rfl

theorem Inode.setTimes_raisesOnly (env : Env) (errors : FsErrors) (byteOffset : ℕ) :
    (Inode.setTimes env errors byteOffset).RaisesOnly Exn.caught := by
  apply (env.getDinode_raisesOnly byteOffset).bind
  intro d
  apply (errors.call_raisesOnly _).bind
  intro _
  apply (errors.call_raisesOnly _).bind
  intro _
  trivial

theorem Inode.isRet_setTimes {env : Env} {errors : FsErrors} {byteOffset : ℕ} :
    (Inode.setTimes env errors byteOffset).isRet = true ↔
      (∃ d, env.getDinode byteOffset = .ret d) ∧ errors .mtimePath = none ∧
        errors .setLastWriteTime = none := by
  rw [Outcome.isRet_iff]
  unfold setTimes
  simp only [Outcome.bind_eq_ret, FsErrors.call_eq_ret]
  refine ⟨?_, ?_⟩
  · rintro ⟨_, d, hd, _, hpath, _, htime, _⟩
    exact ⟨⟨d, hd⟩, hpath, htime⟩
  · rintro ⟨⟨d, hd⟩, hpath, htime⟩
    exact ⟨_, d, hd, (), hpath, (), htime, rfl⟩

namespace FileInode

variable {env : Env} {d : Dinode} {fuel early byteOffset : ℕ} {errors : FsErrors} {now : ℤ}
  {file : Option OutFile} {buffer : Buffer}

theorem skips_raisesOnly (env : Env) (errors : FsErrors) (byteOffset : ℕ)
    (file : Option OutFile) : (skips env errors byteOffset file).RaisesOnly Exn.caught := by
  apply (errors.call_raisesOnly _).bind
  intro _
  apply (errors.call_raisesOnly _).bind
  intro _
  cases file with
  | none => trivial
  | some f =>
    apply (errors.call_raisesOnly _).bind
    intro _
    apply (env.getDinode_raisesOnly _).bind
    intro d
    split
    · trivial
    · apply (errors.call_raisesOnly _).bind
      intro _
      trivial

theorem eachXad_ne_raise {f : Xad → List Xad → Option (Outcome Exn (List Xad))} {e : Exn}
    (hf : ∀ x v, f x v ≠ some (.raise e)) (xs v : List Xad) :
    eachXad f xs v ≠ some (.raise e) := by
  induction xs generalizing v with
  | nil =>
    intro h
    cases h
  | cons x xs ih =>
    rw [eachXad]
    split
    · exact ih _
    · exact hf x v

theorem spec_ne_raise {α : Type} {allowed : Exn → Bool} {e : Exn} {r : Option (Outcome Exn α)}
    (h : r ≠ some (.raise e) ∨ allowed e = false) :
    r.map (Outcome.spec allowed) ≠ some (.raise e) := by
  intro hr
  obtain ⟨o, ho, hspec⟩ := Option.map_eq_some_iff.mp hr
  cases o with
  | ret a => cases hspec
  | terminate => cases hspec
  | raise e' =>
    rw [Outcome.spec] at hspec
    split at hspec
    · rename_i hallowed
      obtain rfl := Outcome.raise.inj hspec
      rcases h with h | h
      · exact h ho
      · rw [h] at hallowed
        cases hallowed
    · cases hspec

/-- An exception does not get out of the collection: it ends the program. -/
theorem getInternalXtpage_ne_raise (e : Exn) (x : Xad) (v : List Xad) :
    getInternalXtpage env fuel x v ≠ some (.raise e) := by
  induction fuel generalizing x v with
  | zero =>
    intro h
    cases h
  | succ fuel ih =>
    rw [getInternalXtpage]
    apply spec_ne_raise
    rcases env.readBytes_cases (x.address * env.device.blocksize.bytes) xtpageBytes env.fresh with
      ⟨b, hb⟩ | ⟨what, hb⟩
    · rw [hb]
      dsimp only
      refine Or.inl ?_
      split
      · simp
      · split
        · simp
        · exact spec_ne_raise (Or.inl (eachXad_ne_raise ih _ _))
    · rw [hb]
      dsimp only
      cases e with
      | extentError what' => exact Or.inl (by simp)
      | invalidRead what' => exact Or.inr rfl
      | filesystemError what' => exact Or.inr rfl
      | badDirData what' => exact Or.inr rfl

theorem collectXads_ne_raise (e : Exn) : collectXads env fuel d ≠ some (.raise e) := by
  rw [collectXads]
  split
  · intro h
    cases h
  · exact spec_ne_raise (Or.inl (eachXad_ne_raise (getInternalXtpage_ne_raise e) _ _))

theorem writeExtentToFile_raisesOnly (x : Xad) (buffer : Buffer) :
    (writeExtentToFile env x buffer).outcome.RaisesOnly Exn.caught := by
  rcases writeExtentToFile_outcome env x buffer with h | ⟨what, h⟩
  · rw [h]
    trivial
  · rw [h]
    exact rfl

theorem writeExtents_raisesOnly (env : Env) (xads : List Xad) (buffer : Buffer) :
    (writeExtents env xads buffer).outcome.RaisesOnly Exn.caught := by
  induction xads generalizing buffer with
  | nil => trivial
  | cons x xs ih =>
    rw [writeExtents]
    dsimp only
    split
    · exact ih _
    · exact writeExtentToFile_raisesOnly x buffer

/-! ### Saving and recovering a file -/

def Collected (env : Env) (fuel byteOffset : ℕ) : Prop :=
  ∀ d, env.getDinode byteOffset = .ret d →
    2 < Xtpage.nextindex (dinodeMemory env d) rootPos →
    (collectXads env fuel d).map Outcome.isRet = some true

theorem saveOpened_raisesOnly (h : Collected env fuel byteOffset) (early : ℕ)
    (buffer : Buffer) :
    ∃ s, saveOpened env fuel early byteOffset buffer = some s ∧
      s.outcome.RaisesOnly Exn.caught := by
  rw [saveOpened]
  rcases env.getDinode_cases byteOffset with ⟨d, hd⟩ | ⟨what, hd⟩
  · rw [hd]
    dsimp only
    by_cases hidx : Xtpage.nextindex (dinodeMemory env d) rootPos ≤ 2
    · rw [if_pos hidx]
      exact ⟨_, rfl, trivial⟩
    · rw [if_neg hidx]
      obtain ⟨o, ho, hret⟩ := Option.map_eq_some_iff.mp (h d hd (by omega))
      obtain ⟨xads, rfl⟩ := Outcome.isRet_iff.mp hret
      rw [ho]
      dsimp only
      have hwrites := writeExtents_raisesOnly env xads buffer
      split
      · exact ⟨_, rfl, trivial⟩
      · exact ⟨_, rfl, hwrites⟩
  · rw [hd]
    exact ⟨_, rfl, rfl⟩

theorem collected_of_saveOpened {s : Saved}
    (hs : saveOpened env fuel early byteOffset buffer = some s) (ho : s.outcome ≠ .terminate) :
    Collected env fuel byteOffset := by
  intro d hd hidx
  rw [saveOpened, hd] at hs
  dsimp only at hs
  rw [if_neg (by omega)] at hs
  split at hs
  · cases hs
  · rename_i e he
    exact absurd he (collectXads_ne_raise e)
  · obtain rfl := Option.some.inj hs
    exact absurd rfl ho
  · rename_i xads hxads
    rw [hxads]
    rfl

/-- `save_file` returns or raises what `recover` catches exactly if it collects the extents. -/
theorem saveFile_raisesOnly_iff (env : Env) (fuel early byteOffset : ℕ) (buffer : Buffer)
    {path : Outcome Exn Unit} (hpath : path.RaisesOnly Exn.caught) :
    (∃ s, saveFile env fuel early path byteOffset buffer = some s ∧
      s.outcome.RaisesOnly Exn.caught) ↔ (path = .ret () → Collected env fuel byteOffset) := by
  cases path with
  | terminate => exact hpath.elim
  | raise e =>
    refine ⟨?_, ?_⟩
    · intro _ h
      cases h
    · intro _
      refine ⟨_, rfl, ?_⟩
      show (Outcome.spec _ (Outcome.raise e)).RaisesOnly _
      rw [hpath.spec_eq]
      exact hpath
  | ret u =>
    rw [saveFile]
    refine ⟨?_, ?_⟩
    · rintro ⟨s, hs, hraises⟩ _
      obtain ⟨t, ht, rfl⟩ := Option.map_eq_some_iff.mp hs
      refine collected_of_saveOpened ht (fun hterm => ?_)
      rw [hterm] at hraises
      exact hraises
    · intro h
      obtain ⟨t, ht, hraises⟩ := saveOpened_raisesOnly (h rfl) early buffer
      rw [ht]
      refine ⟨_, rfl, ?_⟩
      show (Outcome.spec _ (Outcome.handle _ _ t.outcome)).RaisesOnly _
      have hhandle : t.outcome.handle Exn.isExtentError (fun _ => .ret ()) = t.outcome := by
        cases ho : t.outcome with
        | ret a => rfl
        | terminate => rfl
        | raise e =>
          rw [ho] at hraises
          cases e with
          | extentError what => exact Bool.noConfusion hraises
          | invalidRead what => rfl
          | filesystemError what => rfl
          | badDirData what => rfl
      rw [hhandle, hraises.spec_eq]
      exact hraises

theorem tryRecover_raisesOnly_iff :
    (∃ r, tryRecover env fuel early errors now byteOffset file buffer = some r ∧
      r.outcome.RaisesOnly Exn.caught) ↔
      (skips env errors byteOffset file = .ret false → errors .savePath = none →
        Collected env fuel byteOffset) := by
  have hskips := skips_raisesOnly env errors byteOffset file
  rw [tryRecover]
  cases hs : skips env errors byteOffset file with
  | terminate =>
    rw [hs] at hskips
    exact hskips.elim
  | raise e =>
    rw [hs] at hskips
    exact iff_of_true ⟨_, rfl, hskips⟩ (by simp)
  | ret skip =>
    cases skip with
    | true => exact iff_of_true ⟨_, rfl, trivial⟩ (by simp)
    | false =>
      rw [← FsErrors.call_eq_ret (u := ())]
      have hsave := saveFile_raisesOnly_iff env fuel early byteOffset buffer
        (errors.call_raisesOnly .savePath)
      have htimes := Inode.setTimes_raisesOnly env errors byteOffset
      dsimp only
      refine ⟨?_, ?_⟩
      · rintro ⟨r, hr, hraises⟩ _
        obtain ⟨s, hs', rfl⟩ := Option.map_eq_some_iff.mp hr
        refine hsave.mp ⟨s, hs', ?_⟩
        split at hraises
        · rename_i h
          rw [h]
          trivial
        · exact hraises
      · intro h
        obtain ⟨s, hs', hraises⟩ := hsave.mpr (h rfl)
        rw [hs']
        refine ⟨_, rfl, ?_⟩
        dsimp only
        split
        · split
          · trivial
          · rename_i e he
            rw [he] at htimes
            exact htimes
          · rename_i he
            rw [he] at htimes
            exact htimes
        · exact hraises

/-- `recover` returns exactly if it does not save the file, or collects the extents. -/
theorem isRet_recover_iff (early : ℕ) (now : ℤ) (buffer : Buffer) :
    (∃ r, recover env fuel early errors now byteOffset file buffer = some r ∧
      r.outcome.isRet = true) ↔
      (skips env errors byteOffset file = .ret false → errors .savePath = none →
        Collected env fuel byteOffset) := by
  rw [← tryRecover_raisesOnly_iff, recover]
  refine ⟨?_, ?_⟩
  · rintro ⟨r, hr, hret⟩
    obtain ⟨t, ht, rfl⟩ := Option.map_eq_some_iff.mp hr
    exact ⟨t, ht, Outcome.isRet_handle_iff.mp hret⟩
  · rintro ⟨t, ht, hraises⟩
    rw [ht]
    exact ⟨_, rfl, Outcome.isRet_handle_iff.mpr hraises⟩

/-! ### The tree of a file -/

/-- Every page that the collection gets to can be read, and none leads back to itself. -/
def TreeReadable (env : Env) (d : Dinode) : Prop :=
  ¬ Raises (xtKids env d) .root ∧
    ¬ ∃ n, Relation.ReflTransGen (Live (xtKids env d)) .root n ∧
      Relation.TransGen (Live (xtKids env d)) n n

theorem treeReadable_iff :
    TreeReadable env d ↔ ∃ fuel, (collectXads env fuel d).map Outcome.isRet = some true := by
  rw [TreeReadable, ← visit_true_iff (finite_reached env d .root)]
  refine ⟨?_, ?_⟩
  · rintro ⟨fuel, h⟩
    refine ⟨fuel, ?_⟩
    rw [collectXads_visit]
    exact visit_mono (Nat.le_succ fuel) h
  · rintro ⟨fuel, h⟩
    refine ⟨fuel + 1, ?_⟩
    rwa [← collectXads_visit]

theorem Collected.mono {fuel' : ℕ} (h : Collected env fuel byteOffset) (hle : fuel ≤ fuel') :
    Collected env fuel' byteOffset := by
  intro d hd hidx
  have hd' := h d hd hidx
  rw [collectXads_visit] at hd' ⊢
  exact visit_mono (Nat.succ_le_succ hle) hd'

theorem exists_collected_iff :
    (∃ fuel, Collected env fuel byteOffset) ↔ ∀ d, env.getDinode byteOffset = .ret d →
      2 < Xtpage.nextindex (dinodeMemory env d) rootPos → TreeReadable env d := by
  refine ⟨?_, ?_⟩
  · rintro ⟨fuel, h⟩ d hd hidx
    exact treeReadable_iff.mpr ⟨fuel, h d hd hidx⟩
  · intro h
    by_cases hcollect : ∃ d, env.getDinode byteOffset = .ret d ∧
        2 < Xtpage.nextindex (dinodeMemory env d) rootPos
    · obtain ⟨d, hd, hidx⟩ := hcollect
      obtain ⟨fuel, hfuel⟩ := treeReadable_iff.mp (h d hd hidx)
      refine ⟨fuel, fun d' hd' _ => ?_⟩
      obtain rfl := Outcome.ret.inj (hd.symm.trans hd')
      exact hfuel
    · exact ⟨0, fun d hd hidx => absurd ⟨d, hd, hidx⟩ hcollect⟩

end FileInode

/-! ### Inodes of all kinds -/

def DirInode.createDir (errors : FsErrors) : Outcome Exn Unit := do
  errors.call .dirPath
  errors.call .createDirectories

def DirInode.recover (env : Env) (errors : FsErrors) (byteOffset : ℕ) : Outcome Exn Unit := do
  let _ ← Inode.setTimes env errors byteOffset
  return ()

/-- What an inode meets: the errors of its path operations, the file at its path, the time,
and how much `stdio` writes early. -/
structure World where
  errors : FsErrors
  file : Option OutFile
  now : ℤ
  early : ℕ

def Inode.createDir (w : World) (ino : Inode) : Outcome Exn Unit :=
  match ino.kind with
  | .dir => DirInode.createDir w.errors
  | _ => .ret ()

/-- The virtual `recover`, which hands on the buffer of `write_extent_to_file`; `none` when the
fuel runs out. -/
def Inode.recover (env : Env) (fuel : ℕ) (w : World) (ino : Inode) (buffer : Buffer) :
    Option (Outcome Exn Buffer) :=
  match ino.kind with
  | .file =>
      (FileInode.recover env fuel w.early w.errors w.now ino.byteOffset w.file buffer).map
        (fun r => r.outcome >>= fun _ => .ret r.buffer)
  | .dir => some (DirInode.recover env w.errors ino.byteOffset >>= fun _ => .ret buffer)
  | _ => some (.ret buffer)

namespace Recoverer

/-- `recover_dirtree`, of `inodes_` or of the queue: how it ends, and the inodes that it has
tried.  It creates the output directory first. -/
def recoverDirtree (createDirectory : Outcome Exn Unit) (prio : List (Inode × World)) :
    Option (Outcome Exn Unit × List (Inode × World)) :=
  match createDirectory with
  | .ret _ => Outcome.forEach (fun p _ => some (p.1.createDir p.2)) prio ()
  | o => some (o, [])

def recoverIterative (env : Env) (fuel : ℕ) (prio : List (Inode × World)) (buffer : Buffer) :
    Option (Outcome Exn Buffer × List (Inode × World)) :=
  Outcome.forEach (fun p => p.1.recover env fuel p.2) prio buffer

end Recoverer

/-! ### Inodes that let nothing out -/

def Inode.Returns (env : Env) (w : World) (ino : Inode) (fuel : ℕ) : Prop :=
  match ino.kind with
  | .file => FileInode.skips env w.errors ino.byteOffset w.file = .ret false →
      w.errors .savePath = none → FileInode.Collected env fuel ino.byteOffset
  | .dir => (∃ d, env.getDinode ino.byteOffset = .ret d) ∧ w.errors .mtimePath = none ∧
      w.errors .setLastWriteTime = none
  | _ => True

/-- For a directory, nothing raises.  For a file that is saved, the pages of its extent tree
can be read, and none leads back to itself. -/
def Inode.Passes (env : Env) (w : World) (ino : Inode) : Prop :=
  match ino.kind with
  | .file => FileInode.skips env w.errors ino.byteOffset w.file = .ret false →
      w.errors .savePath = none → ∀ d, env.getDinode ino.byteOffset = .ret d →
        2 < Xtpage.nextindex (FileInode.dinodeMemory env d) FileInode.rootPos →
        FileInode.TreeReadable env d
  | .dir => (w.errors .dirPath = none ∧ w.errors .createDirectories = none) ∧
      (∃ d, env.getDinode ino.byteOffset = .ret d) ∧ w.errors .mtimePath = none ∧
      w.errors .setLastWriteTime = none
  | _ => True

namespace Inode

variable {env : Env} {w : World} {ino : Inode} {fuel : ℕ}

theorem createDir_eq_ret_iff :
    ino.createDir w = .ret () ↔
      (ino.kind = .dir → w.errors .dirPath = none ∧ w.errors .createDirectories = none) := by
  unfold createDir
  split
  · rename_i hkind
    unfold DirInode.createDir
    simp only [Outcome.bind_eq_ret, FsErrors.call_eq_ret, hkind, forall_const, exists_const]
  · rename_i hkind
    exact ⟨fun _ h => absurd h hkind, fun _ => rfl⟩

theorem recover_eq_ret_iff (buffer : Buffer) :
    (∃ b, ino.recover env fuel w buffer = some (.ret b)) ↔ ino.Returns env w fuel := by
  unfold recover Returns
  split
  · rw [← FileInode.isRet_recover_iff w.early w.now buffer]
    refine ⟨?_, ?_⟩
    · rintro ⟨b, hb⟩
      obtain ⟨r, hr, hret⟩ := Option.map_eq_some_iff.mp hb
      obtain ⟨u, hu, _⟩ := Outcome.bind_eq_ret.mp hret
      exact ⟨r, hr, Outcome.isRet_iff.mpr ⟨u, hu⟩⟩
    · rintro ⟨r, hr, hret⟩
      obtain ⟨u, hu⟩ := Outcome.isRet_iff.mp hret
      refine ⟨r.buffer, ?_⟩
      rw [hr, Option.map_some, hu]
      rfl
  · rw [← isRet_setTimes, Outcome.isRet_iff, DirInode.recover]
    refine ⟨?_, ?_⟩
    · rintro ⟨b, hb⟩
      obtain ⟨_, hrec, _⟩ := Outcome.bind_eq_ret.mp (Option.some.inj hb)
      obtain ⟨t, ht, _⟩ := Outcome.bind_eq_ret.mp hrec
      exact ⟨t, ht⟩
    · rintro ⟨t, ht⟩
      rw [ht]
      exact ⟨buffer, rfl⟩
  · exact ⟨fun _ => trivial, fun _ => ⟨buffer, rfl⟩⟩

theorem Returns.mono {fuel' : ℕ} (hle : fuel ≤ fuel') (h : ino.Returns env w fuel) :
    ino.Returns env w fuel' := by
  unfold Returns at h ⊢
  split
  · rename_i hkind
    rw [hkind] at h
    exact fun hskip hpath => (h hskip hpath).mono hle
  · rename_i hkind
    rw [hkind] at h
    exact h
  · trivial

/-- An inode passes if its directory is created and, with enough fuel, `recover` returns. -/
theorem passes_iff :
    ino.Passes env w ↔ ino.createDir w = .ret () ∧ ∃ fuel, ino.Returns env w fuel := by
  rw [createDir_eq_ret_iff]
  unfold Passes Returns
  cases hkind : ino.kind with
  | file =>
    by_cases hsave : FileInode.skips env w.errors ino.byteOffset w.file = .ret false ∧
        w.errors .savePath = none
    · simp only [hsave, forall_const, reduceCtorEq, IsEmpty.forall_iff, true_and]
      exact FileInode.exists_collected_iff.symm
    · refine ⟨?_, ?_⟩
      · intro _
        exact ⟨by simp, 0, fun hskip hpath => absurd ⟨hskip, hpath⟩ hsave⟩
      · intro _ hskip hpath
        exact absurd ⟨hskip, hpath⟩ hsave
  | dir => simp
  | unallocated => simp
  | symlink => simp
  | special => simp

end Inode

namespace Recoverer

/-! ### All inodes -/

/-- Both loops try every inode and return. -/
def AllAttempted (env : Env) (prio : List (Inode × World)) (buffer : Buffer) : Prop :=
  (∃ u, recoverDirtree (.ret ()) prio = some (.ret u, prio)) ∧
    ∃ fuel b, recoverIterative env fuel prio buffer = some (.ret b, prio)

theorem recoverDirtree_iff (prio : List (Inode × World)) :
    (∃ u, recoverDirtree (.ret ()) prio = some (.ret u, prio)) ↔
      ∀ p ∈ prio, p.1.createDir p.2 = .ret () := by
  apply Outcome.forEach_eq_ret_iff
  intro p _ _
  exact ⟨fun ⟨_, hu⟩ => Option.some.inj hu, fun h => ⟨(), congrArg some h⟩⟩

theorem recoverIterative_iff (env : Env) (prio : List (Inode × World)) (buffer : Buffer) :
    (∃ fuel b, recoverIterative env fuel prio buffer = some (.ret b, prio)) ↔
      ∀ p ∈ prio, ∃ fuel, p.1.Returns env p.2 fuel := by
  refine Iff.trans ?_ (Outcome.exists_forall_mem_iff (fun _ _ _ hle h => Inode.Returns.mono hle h))
  apply exists_congr
  intro fuel
  apply Outcome.forEach_eq_ret_iff
  intro p _ buffer'
  exact Inode.recover_eq_ret_iff buffer'

/-- **All inodes are tried exactly if nothing raises for a directory, and no file that is saved
has a tree with a page that cannot be read or leads back to itself.** -/
theorem allAttempted_iff (env : Env) (prio : List (Inode × World)) (buffer : Buffer) :
    AllAttempted env prio buffer ↔ ∀ p ∈ prio, p.1.Passes env p.2 := by
  rw [AllAttempted, recoverDirtree_iff, recoverIterative_iff, ← forall₂_and]
  apply forall₂_congr
  intro p _
  exact Inode.passes_iff.symm

/-- A file whose tree has one page, behind the end of the device. -/
def brokenTree : Env := (Device.disk [(242, 3), (264, 1), (268, 9)]).zeroed

def brokenQueue : List (Inode × World) :=
  [(.construct .file (brokenTree.readDinode 0) 0, ⟨.quiet, none, 0, 0⟩),
    (.construct .symlink (brokenTree.readDinode 512) 512, ⟨.quiet, none, 0, 0⟩)]

/-- **A page of an extent tree that cannot be read** ends the program. -/
theorem not_allAttempted_brokenTree :
    ¬ AllAttempted brokenTree brokenQueue (fun _ => 0) := by
  intro h
  have hpass := (allAttempted_iff _ _ _).mp h _ List.mem_cons_self
  obtain ⟨hraises, _⟩ := hpass rfl rfl (brokenTree.readDinode 0) rfl (by decide)
  have hroot : FileInode.xtKids brokenTree (brokenTree.readDinode 0) .root = some [.page 9] := by
    decide
  have hpage : FileInode.xtKids brokenTree (brokenTree.readDinode 0) (.page 9) = none := by decide
  exact hraises ⟨.page 9, .single ⟨[.page 9], hroot, List.mem_singleton_self _⟩, hpage⟩

end Recoverer

end Jfsrec
