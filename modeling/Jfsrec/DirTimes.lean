import Jfsrec.Ancestry
import Jfsrec.RecoverFile

/-!
# The times of directories

`recover_dirtree` creates the directories, and `recover_iterative` then lets every inode
recover in the order of the list.  A directory gets its time of writing when its turn
comes; a file that is not there yet is created, and that gives the directory it is in the
current time.

`dirTime_recoverIterative` says what a run leaves: the times are those of the last of these
events.  A directory keeps its time exactly if no file is created in it afterwards, or the
last one at that very second.
-/

namespace Jfsrec

open Lib Recoverer

/-- The output directory: the directories with their times of writing, and the files. -/
structure FileSystem where
  dirTime : Path → Option ℤ
  file : Path → Option OutFile

/-- An inode with its path, the times at which `create_dir` and `recover` are called for it, and
how much `stdio` writes early. -/
structure Turn where
  ino : Inode
  path : Path
  created : ℤ
  now : ℤ
  early : ℕ

namespace FileSystem

def touch (fs : FileSystem) (p : Path) (now : ℤ) : FileSystem :=
  { fs with dirTime := Function.update fs.dirTime p.dropLast (some now) }

def setDirTime (fs : FileSystem) (p : Path) (time : ℤ) : FileSystem :=
  { fs with dirTime := Function.update fs.dirTime p (some time) }

/-- `create_directory`; `none` is the `filesystem_error` that it throws. -/
def createDirectory (now : ℤ) (fs : FileSystem) (p : Path) : Option FileSystem :=
  if (fs.file p).isSome then none
  else if (fs.dirTime p).isSome then some fs
  else if p ≠ [] ∧ (fs.dirTime p.dropLast).isNone then none
  else some ((fs.touch p now).setDirTime p now)

/-- `create_directories`: from the output directory downwards. -/
def createDirectories (now : ℤ) (fs : FileSystem) (p : Path) : Option FileSystem :=
  p.inits.foldlM (createDirectory now) fs

end FileSystem

/-- `DirInode::recover`; `none` when it throws. -/
def DirInode.recoverAt (env : Env) (t : Turn) (fs : FileSystem) : Option FileSystem :=
  match Inode.setTimes env .quiet t.ino.byteOffset with
  | .ret time =>
      if (fs.dirTime t.path).isSome then some (fs.setDirTime t.path time.tvSec) else none
  | _ => none

/-- `FileInode::recover`; `none` when it does not return.  Where the directory is missing,
`save_file` tries to open the file for ever. -/
def FileInode.recoverAt (env : Env) (fuel : ℕ) (t : Turn) (fs : FileSystem) (buffer : Buffer) :
    Option (FileSystem × Buffer) :=
  match FileInode.recover env fuel t.early .quiet t.now t.ino.byteOffset (fs.file t.path)
      buffer with
  | some ⟨.ret _, buffer, file⟩ =>
      let fs' := { fs with file := Function.update fs.file t.path file }
      if (fs.file t.path).isNone ∧ file.isSome then
        if (fs.dirTime t.path.dropLast).isSome then some (fs'.touch t.path t.now, buffer) else none
      else some (fs', buffer)
  | _ => none

namespace Turn

def createDir (fs : FileSystem) (t : Turn) : Option FileSystem :=
  match t.ino.kind with
  | .dir => fs.createDirectories t.created t.path
  | _ => some fs

def recover (env : Env) (fuel : ℕ) (s : FileSystem × Buffer) (t : Turn) :
    Option (FileSystem × Buffer) :=
  match t.ino.kind with
  | .dir => (DirInode.recoverAt env t s.1).map (fun fs => (fs, s.2))
  | .file => FileInode.recoverAt env fuel t s.1 s.2
  | _ => some s

end Turn

namespace Recoverer

/-- `recover_dirtree` on a file system, which creates the output directory at the time `now`. -/
def makeDirtree (now : ℤ) (ts : List Turn) (fs : FileSystem) : Option FileSystem :=
  (fs.createDirectory now []).bind (ts.foldlM Turn.createDir)

def recoverTree (env : Env) (fuel : ℕ) (now : ℤ) (ts : List Turn) (fs : FileSystem)
    (buffer : Buffer) : Option FileSystem :=
  (makeDirtree now ts fs).bind (fun fs =>
    (ts.foldlM (Turn.recover env fuel) (fs, buffer)).map Prod.fst)

def mtime (env : Env) (t : Turn) : ℤ :=
  match env.getDinode t.ino.byteOffset with
  | .ret d => d.diMtime.tvSec
  | _ => 0

def createdIn (files : Path → Option OutFile) (p : Path) (ts : List Turn) : List Turn :=
  ts.filter (fun u => u.ino.kind = .file ∧ (files u.path).isNone ∧ u.path.dropLast = p)

/-- The directories have the times that their dinodes say. -/
def TimesKept (env : Env) (ts : List Turn) (fs : FileSystem) : Prop :=
  ∀ t ∈ ts, t.ino.kind = .dir → fs.dirTime t.path = some (mtime env t)

def stampedDir (files : Path → Option OutFile) (t : Turn) : Option Path :=
  match t.ino.kind with
  | .dir => some t.path
  | .file => if (files t.path).isNone then some t.path.dropLast else none
  | _ => none

def stamp (env : Env) (t : Turn) : Option ℤ :=
  match t.ino.kind with
  | .dir => some (mtime env t)
  | _ => some t.now

variable {env : Env} {fuel : ℕ} {fs fs' : FileSystem} {buffer buffer' : Buffer} {t : Turn}
  {ts : List Turn} {files : Path → Option OutFile} {now : ℤ}

/-! ### Creating the directories -/

theorem file_createDirectory {p : Path} (h : fs.createDirectory now p = some fs') :
    fs'.file = fs.file := by
  unfold FileSystem.createDirectory at h
  split_ifs at h
  · rw [← Option.some.inj h]
  · rw [← Option.some.inj h]
    rfl

theorem file_foldlM {α : Type} {f : FileSystem → α → Option FileSystem}
    (hf : ∀ fs a fs', f fs a = some fs' → fs'.file = fs.file) {l : List α} :
    ∀ {fs : FileSystem}, l.foldlM f fs = some fs' → fs'.file = fs.file := by
  induction l with
  | nil =>
    intro fs h
    rw [← Option.some.inj h]
  | cons a l ih =>
    intro fs h
    rw [List.foldlM_cons] at h
    obtain ⟨fs₁, h₁, h₂⟩ := Option.bind_eq_some_iff.mp h
    rw [ih h₂, hf _ _ _ h₁]

theorem file_makeDirtree (h : makeDirtree now ts fs = some fs') : fs'.file = fs.file := by
  obtain ⟨fs₁, h₁, h₂⟩ := Option.bind_eq_some_iff.mp h
  rw [file_foldlM ?_ h₂, file_createDirectory h₁]
  intro fs t fs' ht
  unfold Turn.createDir at ht
  split at ht
  · exact file_foldlM (fun _ _ _ => file_createDirectory) ht
  · rw [← Option.some.inj ht]

/-! ### One turn -/

theorem isSome_ops_saveOpened {early bo : ℕ} {s : Saved}
    (h : FileInode.saveOpened env fuel early bo buffer = some s) : s.ops.isSome := by
  unfold FileInode.saveOpened at h
  split at h
  · rw [← Option.some.inj h]
    rfl
  · rw [← Option.some.inj h]
    rfl
  · split_ifs at h
    · rw [← Option.some.inj h]
      rfl
    · split at h
      · cases h
      · rw [← Option.some.inj h]
        rfl
      · rw [← Option.some.inj h]
        rfl
      · dsimp only at h
        split at h <;> rw [← Option.some.inj h] <;> rfl

theorem isSome_file_recover {early bo : ℕ} {r : Recovered}
    (h : FileInode.recover env fuel early .quiet now bo none buffer = some r) :
    r.file.isSome := by
  unfold FileInode.recover FileInode.tryRecover at h
  have hskips : FileInode.skips env .quiet bo none = .ret false := rfl
  have hpath : FsErrors.quiet.call .savePath = .ret () := rfl
  rw [hskips, hpath] at h
  unfold FileInode.saveFile at h
  cases hs : FileInode.saveOpened env fuel early bo buffer with
  | none =>
    rw [hs] at h
    cases h
  | some s =>
    rw [hs] at h
    obtain ⟨ops, hops⟩ := Option.isSome_iff_exists.mp (isSome_ops_saveOpened hs)
    have hwritten : ∀ s' : Saved, s'.ops = s.ops → (FileInode.written s' now none).isSome := by
      intro s' hs'
      rw [FileInode.written, hs', hops]
      rfl
    rw [← Option.some.inj h]
    dsimp only
    split
    · split
      · rw [Option.isSome_map]
        exact hwritten _ rfl
      · exact hwritten _ rfl
      · exact hwritten _ rfl
    · exact hwritten _ rfl

theorem setTimes_eq_ret {bo : ℕ} {time : Timestruc}
    (h : Inode.setTimes env .quiet bo = .ret time) :
    ∃ d, env.getDinode bo = .ret d ∧ time = d.diMtime := by
  rcases env.getDinode_cases bo with ⟨d, hd⟩ | ⟨what, hd⟩
  · refine ⟨d, hd, ?_⟩
    rw [Inode.setTimes, hd] at h
    exact (Outcome.ret.inj h).symm
  · rw [Inode.setTimes, hd] at h
    cases h

/-- A file that is missing gets its directory a new time; no other file does. -/
theorem recoverAt_spec (h : FileInode.recoverAt env fuel t fs buffer = some (fs', buffer')) :
    fs'.dirTime = (if (fs.file t.path).isNone then
        Function.update fs.dirTime t.path.dropLast (some t.now) else fs.dirTime) ∧
      ∀ p, p ≠ t.path → fs'.file p = fs.file p := by
  unfold FileInode.recoverAt at h
  split at h
  · rename_i b file hrec
    have hsome : (fs.file t.path).isNone = true → file.isSome = true := by
      intro hnone
      rw [Option.isNone_iff_eq_none.mp hnone] at hrec
      exact isSome_file_recover hrec
    dsimp only at h
    by_cases hnone : (fs.file t.path).isNone = true
    · rw [if_pos ⟨hnone, hsome hnone⟩] at h
      split_ifs at h
      obtain ⟨rfl, _⟩ := Prod.mk.inj (Option.some.inj h)
      rw [if_pos hnone]
      exact ⟨rfl, fun p hp => Function.update_of_ne hp _ _⟩
    · rw [if_neg (fun hc => hnone hc.1)] at h
      obtain ⟨rfl, _⟩ := Prod.mk.inj (Option.some.inj h)
      rw [if_neg hnone]
      exact ⟨rfl, fun p hp => Function.update_of_ne hp _ _⟩
  · cases h

/-- **What a turn does**: it changes one time at most, and no file but its own. -/
theorem recover_spec (h : t.recover env fuel (fs, buffer) = some (fs', buffer'))
    (hfile : fs.file t.path = files t.path) :
    fs'.dirTime = assign (stampedDir files) (stamp env) fs.dirTime t ∧
      ∀ p, p ≠ t.path → fs'.file p = fs.file p := by
  unfold Turn.recover at h
  unfold assign stampedDir stamp
  cases hkind : t.ino.kind with
  | dir =>
    rw [hkind] at h
    dsimp only at h ⊢
    obtain ⟨fs₁, hrec, heq⟩ := Option.map_eq_some_iff.mp h
    obtain ⟨rfl, _⟩ := Prod.mk.inj heq
    unfold DirInode.recoverAt at hrec
    cases htimes : Inode.setTimes env .quiet t.ino.byteOffset with
    | ret time =>
      rw [htimes] at hrec
      dsimp only at hrec
      split_ifs at hrec
      obtain ⟨d, hd, rfl⟩ := setTimes_eq_ret htimes
      rw [← Option.some.inj hrec, mtime, hd]
      exact ⟨rfl, fun _ _ => rfl⟩
    | raise e =>
      rw [htimes] at hrec
      cases hrec
    | terminate =>
      rw [htimes] at hrec
      cases hrec
  | file =>
    rw [hkind] at h
    dsimp only at h ⊢
    obtain ⟨htime, hframe⟩ := recoverAt_spec h
    rw [htime, hfile]
    refine ⟨?_, hframe⟩
    by_cases hnone : (files t.path).isNone = true
    · rw [if_pos hnone, if_pos hnone]
    · rw [if_neg hnone, if_neg hnone]
  | unallocated =>
    rw [hkind] at h
    obtain ⟨rfl, _⟩ := Prod.mk.inj (Option.some.inj h)
    exact ⟨rfl, fun _ _ => rfl⟩
  | symlink =>
    rw [hkind] at h
    obtain ⟨rfl, _⟩ := Prod.mk.inj (Option.some.inj h)
    exact ⟨rfl, fun _ _ => rfl⟩
  | special =>
    rw [hkind] at h
    obtain ⟨rfl, _⟩ := Prod.mk.inj (Option.some.inj h)
    exact ⟨rfl, fun _ _ => rfl⟩

/-! ### All turns -/

/-- **The times after a run** are those of the last turn that changes them. -/
theorem dirTime_recoverIterative (files : Path → Option OutFile) :
    ∀ {ts : List Turn} {s s' : FileSystem × Buffer},
    (ts.map Turn.path).Nodup → (∀ t ∈ ts, s.1.file t.path = files t.path) →
    ts.foldlM (Turn.recover env fuel) s = some s' →
    s'.1.dirTime = ts.foldl (assign (stampedDir files) (stamp env)) s.1.dirTime := by
  intro ts
  induction ts with
  | nil =>
    intro s s' _ _ h
    rw [← Option.some.inj h]
    rfl
  | cons t ts ih =>
    intro s s' hnodup hfiles h
    rw [List.map_cons, List.nodup_cons] at hnodup
    rw [List.foldlM_cons] at h
    obtain ⟨s₁, h₁, h₂⟩ := Option.bind_eq_some_iff.mp h
    obtain ⟨hstep, hframe⟩ := recover_spec h₁ (hfiles t List.mem_cons_self)
    rw [List.foldl_cons, ← hstep]
    refine ih hnodup.2 (fun u hu => ?_) h₂
    -- the paths are different, so the files of the others are as they were
    rw [hframe u.path (fun heq => hnodup.1 (heq ▸ List.mem_map_of_mem hu))]
    exact hfiles u (List.mem_cons_of_mem _ hu)

/-- The turns that change the time of a directory after its own are those that create a file
in it. -/
theorem lastFor_dir {before after : List Turn}
    (hnodup : ((before ++ t :: after).map Turn.path).Nodup) (hkind : t.ino.kind = .dir) :
    lastFor (stampedDir files) (before ++ t :: after) t.path =
      some ((createdIn files t.path after).getLast?.getD t) := by
  have hself : stampedDir files t = some t.path := by
    rw [stampedDir, hkind]
  have hafter : after.filter (fun u => stampedDir files u = some t.path) =
      createdIn files t.path after := by
    refine List.filter_congr (fun u hu => decide_eq_decide.mpr ?_)
    have hne : u.path ≠ t.path := by
      rw [List.map_append, List.map_cons, List.nodup_append] at hnodup
      exact fun heq => (List.nodup_cons.mp hnodup.2.1).1 (heq ▸ List.mem_map_of_mem hu)
    unfold stampedDir
    cases hu : u.ino.kind <;> simp [hne]
  rw [lastFor, List.filter_append, List.filter_cons_of_pos (by simpa using hself), hafter,
    List.getLast?_append, List.getLast?_cons]
  rfl

theorem dirTime_recoverTree (hnodup : (ts.map Turn.path).Nodup)
    (hrun : recoverTree env fuel now ts fs buffer = some fs') : ∃ time₀ : Path → Option ℤ, ∀ p,
      fs'.dirTime p = (lastFor (stampedDir fs.file) ts p).elim (time₀ p) (stamp env) := by
  obtain ⟨fs₁, hdirs, hrun⟩ := Option.bind_eq_some_iff.mp hrun
  obtain ⟨s, hturns, rfl⟩ := Option.map_eq_some_iff.mp hrun
  refine ⟨fs₁.dirTime, fun p => ?_⟩
  rw [dirTime_recoverIterative fs.file hnodup
    (fun t _ => by rw [file_makeDirtree hdirs]) hturns, foldl_assign]

/-- **A run leaves a directory its time exactly** if none of the files that are missing at the
start comes after the directory that it is in, or the last of those is saved at the second
that the dinode of the directory says. -/
theorem timesKept_iff (hnodup : (ts.map Turn.path).Nodup)
    (hrun : recoverTree env fuel now ts fs buffer = some fs') :
    TimesKept env ts fs' ↔ ∀ before t after, ts = before ++ t :: after → t.ino.kind = .dir →
      ∀ u, (createdIn fs.file t.path after).getLast? = some u → u.now = mtime env t := by
  obtain ⟨time₀, htime⟩ := dirTime_recoverTree hnodup hrun
  have hturn : ∀ before t after, ts = before ++ t :: after → t.ino.kind = .dir →
      (fs'.dirTime t.path = some (mtime env t) ↔
        ∀ u, (createdIn fs.file t.path after).getLast? = some u → u.now = mtime env t) := by
    rintro before t after rfl hkind
    rw [htime, lastFor_dir hnodup hkind, Option.elim_some]
    cases hlast : (createdIn fs.file t.path after).getLast? with
    | none => simp [stamp, hkind]
    | some u =>
      have hu := List.mem_filter.mp (List.mem_of_getLast? hlast)
      have hfile : u.ino.kind = .file := by
        have hcond := of_decide_eq_true hu.2
        exact hcond.1
      simp [stamp, hfile]
  constructor
  · intro h before t after hts hkind
    exact (hturn before t after hts hkind).mp (h t (hts ▸ by simp) hkind)
  · intro h t ht hkind
    obtain ⟨before, after, hts⟩ := List.append_of_mem ht
    exact (hturn before t after hts hkind).mpr (h before t after hts hkind)

/-- An empty file, and a directory that was written at second 5. -/
def twoInodes : Env := (Device.disk [(584, 5)]).zeroed

def emptyFile : Turn where
  ino := .construct .file (twoInodes.readDinode 0) 0
  path := [['d'], ['f']]
  created := 100
  now := 100
  early := 0

def itsDirectory : Turn where
  ino := .construct .dir (twoInodes.readDinode 512) 512
  path := [['d']]
  created := 100
  now := 100
  early := 0

def nothing : FileSystem := ⟨fun _ => none, fun _ => none⟩

theorem recoverTree_both (ts : List Turn) (h : ts = [emptyFile, itsDirectory] ∨
    ts = [itsDirectory, emptyFile]) :
    (recoverTree twoInodes 0 100 ts nothing (fun _ => 0)).isSome := by
  rcases h with rfl | rfl
  · decide
  · decide

theorem timesKept_fileFirst : ∃ fs',
    recoverTree twoInodes 0 100 [emptyFile, itsDirectory] nothing (fun _ => 0) = some fs' ∧
      TimesKept twoInodes [emptyFile, itsDirectory] fs' := by
  obtain ⟨fs', hrun⟩ := Option.isSome_iff_exists.mp (recoverTree_both _ (Or.inl rfl))
  refine ⟨fs', hrun, (timesKept_iff (by decide) hrun).mpr ?_⟩
  intro before t after hts hkind u hu
  rcases before with _ | ⟨a, _ | ⟨b, rest⟩⟩
  · obtain rfl := (List.cons.inj hts).1
    cases hkind
  · obtain rfl : after = [] := (List.cons.inj (List.cons.inj hts).2).2.symm
    cases hu
  · simp at hts

/-- **A directory that comes before its file has the current time in the end.** -/
theorem not_timesKept_directoryFirst : ∃ fs',
    recoverTree twoInodes 0 100 [itsDirectory, emptyFile] nothing (fun _ => 0) = some fs' ∧
      ¬ TimesKept twoInodes [itsDirectory, emptyFile] fs' := by
  obtain ⟨fs', hrun⟩ := Option.isSome_iff_exists.mp (recoverTree_both _ (Or.inr rfl))
  refine ⟨fs', hrun, fun h => ?_⟩
  have htime : (recoverTree twoInodes 0 100 [itsDirectory, emptyFile] nothing (fun _ => 0)).map
      (fun fs => fs.dirTime itsDirectory.path) = some (some 100) := by decide
  rw [hrun] at htime
  have hnow : fs'.dirTime itsDirectory.path = some 100 := Option.some.inj htime
  have hkept := h itsDirectory (by simp) rfl
  rw [hnow] at hkept
  exact absurd hkept (by decide)

end Recoverer

end Jfsrec
