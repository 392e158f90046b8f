import Jfsrec.Attempts
import Jfsrec.DirTimes

/-!
# A second run

A run over inodes that have been recovered finds all directories and all files.  It skips a file
or saves it once more, with the same bytes unless an extent gives it what the buffer of
`write_extent_to_file` held.  And it creates no file, so no directory loses its time any more:
`recoverTree_again`.
-/

namespace Jfsrec

open Lib Recoverer

namespace FileInode

variable {env : Env} {x : Xad} {xads : List Xad} {fuel early byteOffset : ℕ} {now now' : ℤ}
  {file : Option OutFile} {f : OutFile} {b b' : Buffer}

/-! ### The same file again -/

theorem copyPieces_outcome_congr (env : Env) (x : Xad) (fuel r : ℕ) (b b' : Buffer) :
    (copyPieces env x fuel r b).outcome = (copyPieces env x fuel r b').outcome := by
  induction fuel generalizing r b b' with
  | zero => rfl
  | succ fuel ih =>
    by_cases hr : r < extentBytes env x
    · by_cases hread : devicePos env x r ≤ env.device.fssize
      · rw [copyPieces_of_within hr hread, copyPieces_of_within hr hread]
        exact ih _ _ _
      · rw [copyPieces_of_beyond hr hread, copyPieces_of_beyond hr hread]
    · rw [copyPieces_of_le (by omega), copyPieces_of_le (by omega)]

theorem writeExtentToFile_congr (h : PiecesFit env x) (b b' : Buffer) :
    (writeExtentToFile env x b).outcome = (writeExtentToFile env x b').outcome ∧
      (writeExtentToFile env x b).writes = (writeExtentToFile env x b').writes := by
  refine ⟨?_, copyPieces_writes_congr (fun i hi hread => h.mul hi hread) b b'⟩
  unfold writeExtentToFile
  dsimp only
  rw [copyPieces_outcome_congr env x _ 0 b b']

theorem writeExtents_congr (h : ∀ x ∈ xads, PiecesFit env x) (b b' : Buffer) :
    (writeExtents env xads b).outcome = (writeExtents env xads b').outcome ∧
      (writeExtents env xads b).writes = (writeExtents env xads b').writes := by
  induction xads generalizing b b' with
  | nil => exact ⟨rfl, rfl⟩
  | cons x xs ih =>
    obtain ⟨hx, hxs⟩ := List.forall_mem_cons.mp h
    obtain ⟨ho, hw⟩ := writeExtentToFile_congr hx b b'
    obtain ⟨hos, hws⟩ := ih hxs (writeExtentToFile env x b).buffer
      (writeExtentToFile env x b').buffer
    rw [writeExtents, writeExtents]
    dsimp only
    rw [← ho]
    cases (writeExtentToFile env x b).outcome with
    | ret u => exact ⟨hos, by dsimp only; rw [hw, hws]⟩
    | raise e => exact ⟨ho, hw⟩
    | terminate => exact ⟨ho, hw⟩

/-- None of the extents that are collected gives the file what the buffer held. -/
def Leakless (env : Env) (fuel byteOffset : ℕ) : Prop :=
  ∀ d xads, env.getDinode byteOffset = .ret d → collectXads env fuel d = some (.ret xads) →
    ∀ x ∈ xads, PiecesFit env x

def Saved.effect (s : Saved) : Outcome Exn Unit × Option (List FileOp) := (s.outcome, s.ops)

theorem saveOpened_congr (h : Leakless env fuel byteOffset) (early : ℕ) (b b' : Buffer) :
    (saveOpened env fuel early byteOffset b).map Saved.effect
      = (saveOpened env fuel early byteOffset b').map Saved.effect := by
  unfold saveOpened
  cases hd : env.getDinode byteOffset with
  | raise e => rfl
  | terminate => rfl
  | ret d =>
    dsimp only
    by_cases hroot : Xtpage.nextindex (dinodeMemory env d) rootPos ≤ 2
    · rw [if_pos hroot, if_pos hroot]
      rfl
    · rw [if_neg hroot, if_neg hroot]
      cases hxads : collectXads env fuel d with
      | none => rfl
      | some o =>
        cases o with
        | raise e => rfl
        | terminate => rfl
        | ret xads =>
          obtain ⟨ho, hw⟩ := writeExtents_congr (h d xads hd hxads) b b'
          dsimp only
          rw [← ho, ← hw]
          cases (writeExtents env xads b).outcome <;> rfl

/-- **What a file gets does not depend on the files before it.** -/
theorem saveFile_congr (h : Leakless env fuel byteOffset) (early : ℕ) (b b' : Buffer) :
    (saveFile env fuel early (.ret ()) byteOffset b).map Saved.effect
      = (saveFile env fuel early (.ret ()) byteOffset b').map Saved.effect := by
  have hmap : ∀ b, (saveFile env fuel early (.ret ()) byteOffset b).map Saved.effect
      = ((saveOpened env fuel early byteOffset b).map Saved.effect).map (fun e =>
          ((e.1.handle Exn.isExtentError (fun _ => .ret ())).spec Exn.caught, e.2)) := by
    intro b
    rw [saveFile, Option.map_map, Option.map_map]
    rfl
  rw [hmap, hmap, saveOpened_congr h early b b']

theorem exists_ops {r : Recovered} (hskip : skips env .quiet byteOffset file = .ret false)
    (hr : recover env fuel early .quiet now byteOffset file b = some r) :
    ∃ s ops, saveFile env fuel early (.ret ()) byteOffset b = some s ∧ s.ops = some ops := by
  have hcall : FsErrors.quiet.call .savePath = .ret () := rfl
  rw [recover, tryRecover, hskip, hcall] at hr
  obtain ⟨_, ht, _⟩ := Option.map_eq_some_iff.mp hr
  obtain ⟨s, hs, _⟩ := Option.map_eq_some_iff.mp ht
  obtain ⟨opened, hopened, rfl⟩ := Option.map_eq_some_iff.mp hs
  obtain ⟨ops, hops⟩ := Option.isSome_iff_exists.mp (isSome_ops_saveOpened hopened)
  exact ⟨_, ops, hs, hops⟩

theorem recover_of_skips {r : Recovered} (hskip : skips env .quiet byteOffset file ≠ .ret false)
    (hr : recover env fuel early .quiet now byteOffset file b = some r) : r.file = file := by
  rw [recover, tryRecover] at hr
  cases hs : skips env .quiet byteOffset file with
  | raise e =>
    rw [hs] at hr
    rw [← Option.some.inj hr]
  | terminate =>
    rw [hs] at hr
    rw [← Option.some.inj hr]
  | ret skip =>
    cases skip with
    | false => exact absurd hs hskip
    | true =>
      rw [hs] at hr
      rw [← Option.some.inj hr]

theorem exists_file_recover {r : Recovered}
    (hr : recover env fuel early .quiet now byteOffset file b = some r) : ∃ f, r.file = some f := by
  cases file with
  | none => exact Option.isSome_iff_exists.mp (isSome_file_recover hr)
  | some g =>
    by_cases hskip : skips env .quiet byteOffset (some g) = .ret false
    · obtain ⟨s, ops, hsave, hops⟩ := exists_ops hskip hr
      obtain ⟨r', hr', hcontent⟩ := recover_of_not_skips now hskip hsave hops
      obtain rfl := Option.some.inj (hr.symm.trans hr')
      obtain ⟨f, hf, _⟩ := Option.map_eq_some_iff.mp hcontent
      exact ⟨f, hf⟩
    · exact ⟨g, recover_of_skips hskip hr⟩

/-- **A file that `recover` has left, `recover` leaves again**, skipped or saved once more. -/
theorem recover_again (hleak : Leakless env fuel byteOffset) {u : Unit} {c : Buffer}
    (hr : recover env fuel early .quiet now byteOffset file b = some ⟨.ret u, c, some f⟩)
    (now' : ℤ) (b' : Buffer) :
    ∃ c' f', recover env fuel early .quiet now' byteOffset (some f) b'
        = some ⟨.ret (), c', some f'⟩ ∧ f'.content = f.content := by
  -- what saves the file now has saved it before
  have hbefore : skips env .quiet byteOffset (some f) = .ret false →
      skips env .quiet byteOffset file = .ret false := by
    intro hskip
    by_contra hne
    have hfile : some f = file := recover_of_skips hne hr
    exact hne (hfile ▸ hskip)
  have hcollected : skips env .quiet byteOffset (some f) = .ret false →
      FsErrors.quiet .savePath = none → Collected env fuel byteOffset :=
    fun hskip hpath => (isRet_recover_iff early now b).mp ⟨_, hr, rfl⟩ (hbefore hskip) hpath
  obtain ⟨r, hr', hret⟩ := (isRet_recover_iff early now' b').mpr hcollected
  obtain ⟨_, ho⟩ := Outcome.isRet_iff.mp hret
  obtain ⟨f', hf'⟩ := exists_file_recover hr'
  have hresult : r = ⟨.ret (), r.buffer, some f'⟩ := by
    rw [← ho, ← hf']
  refine ⟨r.buffer, f', by rw [hr', ← hresult], ?_⟩
  by_cases hskip : skips env .quiet byteOffset (some f) = .ret false
  · obtain ⟨s, ops, hsave, hops⟩ := exists_ops (hbefore hskip) hr
    obtain ⟨s', ops', hsave', hops'⟩ := exists_ops hskip hr'
    have hcongr := saveFile_congr hleak early b b'
    rw [hsave, hsave'] at hcongr
    have hsame : s.ops = s'.ops := (Prod.mk.inj (Option.some.inj hcongr)).2
    rw [hops, hops'] at hsame
    obtain ⟨r₁, hr₁, hcontent₁⟩ := recover_of_not_skips now (hbefore hskip) hsave hops
    obtain rfl := Option.some.inj (hr.symm.trans hr₁)
    obtain ⟨r₂, hr₂, hcontent₂⟩ := recover_of_not_skips now' hskip hsave' hops'
    obtain rfl := Option.some.inj (hr'.symm.trans hr₂)
    rw [hf'] at hcontent₂
    rw [← Option.some.inj hsame] at hcontent₂
    exact Option.some.inj (hcontent₂.trans hcontent₁.symm)
  · have hfile := recover_of_skips hskip hr'
    rw [hf'] at hfile
    rw [Option.some.inj hfile]

end FileInode

/-! ### Directories that are there -/

namespace FileSystem

variable {fs fs' : FileSystem} {now : ℤ} {p q : Path} {α : Type}

/-- There is a directory at the path, and no file. -/
structure IsDir (fs : FileSystem) (p : Path) : Prop where
  notFile : fs.file p = none
  there : (fs.dirTime p).isSome = true

/-- All directories stay, and those at the paths `made` are there afterwards. -/
structure Makes (made : List Path) (fs fs' : FileSystem) : Prop where
  keeps : ∀ q, fs.IsDir q → fs'.IsDir q
  makes : ∀ q ∈ made, fs'.IsDir q

theorem isSome_update {f : Path → Option ℤ} {p q : Path} {time : ℤ} (h : (f q).isSome = true) :
    (Function.update f p (some time) q).isSome = true := by
  rw [Function.update_apply]
  split
  · rfl
  · exact h

theorem createDirectory_makes (h : fs.createDirectory now p = some fs') : Makes [p] fs fs' := by
  unfold createDirectory at h
  split_ifs at h with hp hthere hup
  · have hnone : fs.file p = none := by simpa using hp
    rw [← Option.some.inj h]
    exact ⟨fun q hq => hq, List.forall_mem_singleton.mpr ⟨hnone, hthere⟩⟩
  · have hnone : fs.file p = none := by simpa using hp
    rw [← Option.some.inj h]
    refine ⟨fun q hq => ⟨hq.notFile, isSome_update (isSome_update hq.there)⟩,
      List.forall_mem_singleton.mpr ⟨hnone, ?_⟩⟩
    show (Function.update (fs.touch p now).dirTime p (some now) p).isSome = true
    rw [Function.update_self]
    rfl

theorem IsDir.createDirectory (h : fs.IsDir p) : fs.createDirectory now p = some fs := by
  rw [FileSystem.createDirectory, h.notFile, if_neg (by simp), if_pos h.there]

theorem exists_createDirectory (hp : fs.file p = none) (hup : p = [] ∨ fs.IsDir p.dropLast)
    (now : ℤ) :
    ∃ fs', fs.createDirectory now p = some fs' := by
  unfold FileSystem.createDirectory
  rw [hp, if_neg (by simp)]
  split_ifs with hthere hnone
  · exact ⟨_, rfl⟩
  · rcases hup with rfl | hup
    · exact absurd rfl hnone.1
    · rw [Option.isNone_iff_eq_none] at hnone
      have hthere := hup.there
      rw [hnone.2] at hthere
      cases hthere
  · exact ⟨_, rfl⟩

section FoldlM

variable {f : FileSystem → α → Option FileSystem} {made : α → List Path}

theorem makes_foldlM (hf : ∀ fs a fs', f fs a = some fs' → Makes (made a) fs fs') {l : List α} :
    ∀ {fs fs' : FileSystem}, l.foldlM f fs = some fs' → Makes (l.flatMap made) fs fs' := by
  induction l with
  | nil =>
    intro fs fs' h
    rw [← Option.some.inj h]
    exact ⟨fun q hq => hq, List.forall_mem_nil _⟩
  | cons a l ih =>
    intro fs fs' h
    rw [List.foldlM_cons] at h
    obtain ⟨fs₁, h₁, h₂⟩ := Option.bind_eq_some_iff.mp h
    obtain ⟨hkeeps₁, hmakes₁⟩ := hf _ _ _ h₁
    obtain ⟨hkeeps₂, hmakes₂⟩ := ih h₂
    refine ⟨fun q hq => hkeeps₂ q (hkeeps₁ q hq), fun q hq => ?_⟩
    rw [List.flatMap_cons, List.mem_append] at hq
    rcases hq with hq | hq
    · exact hkeeps₂ q (hmakes₁ q hq)
    · exact hmakes₂ q hq

end FoldlM

theorem createDirectories_makes (h : fs.createDirectories now p = some fs') :
    Makes p.inits fs fs' := by
  have hmakes : Makes (p.inits.flatMap (fun q => [q])) fs fs' :=
    makes_foldlM (fun _ _ _ h => createDirectory_makes h) h
  rwa [List.flatMap_singleton'] at hmakes

theorem exists_createDirectories (hclear : ∀ q, q <+: p → fs.file q = none) (hroot : fs.IsDir [])
    (now : ℤ) :
    ∃ fs', fs.createDirectories now p = some fs' := by
  unfold createDirectories
  induction p using List.reverseRecOn with
  | nil =>
    exact ⟨fs, foldlM_of_fixed (List.forall_mem_singleton.mpr hroot.createDirectory)⟩
  | append_singleton p x ih =>
    obtain ⟨fs₁, h₁⟩ := ih (fun q hq => hclear q (hq.trans (List.prefix_append _ _)))
    have hmakes := createDirectories_makes h₁
    have hfile : fs₁.file = fs.file := file_foldlM (fun _ _ _ => file_createDirectory) h₁
    have hsplit : (p ++ [x]).inits = p.inits ++ [p ++ [x]] := by
      rw [List.inits_append]
      rfl
    have hfree : fs₁.file (p ++ [x]) = none := by
      rw [hfile]
      exact hclear _ List.prefix_rfl
    have hup : fs₁.IsDir (p ++ [x]).dropLast := by
      rw [List.dropLast_concat]
      exact hmakes.makes p ((List.mem_inits p p).mpr List.prefix_rfl)
    obtain ⟨fs₂, h₂⟩ := exists_createDirectory hfree (Or.inr hup) now
    refine ⟨fs₂, ?_⟩
    rw [hsplit, List.foldlM_append, h₁]
    show [p ++ [x]].foldlM (createDirectory now) fs₁ = _
    rw [List.foldlM_cons, h₂]
    rfl

end FileSystem

/-- What an inode keeps from run to run. -/
def Turn.same (t : Turn) : Inode × Path × ℕ := (t.ino, t.path, t.early)

namespace Recoverer

open FileSystem

variable {env : Env} {fuel : ℕ} {fs fs' : FileSystem} {now now' : ℤ} {t : Turn} {ts ts' : List Turn}
  {b b' : Buffer} {p q : Path} {s s' : FileSystem × Buffer}

/-! ### What a run does for each inode -/

def madeBy (t : Turn) : List Path := if t.ino.kind = .dir then t.path.inits else []

theorem createDir_makes (h : t.createDir fs = some fs') : Makes (madeBy t) fs fs' := by
  unfold Turn.createDir at h
  unfold madeBy
  cases hkind : t.ino.kind with
  | dir =>
    rw [hkind] at h
    rw [if_pos rfl]
    exact createDirectories_makes h
  | _ =>
    rw [hkind] at h
    rw [← Option.some.inj h]
    exact ⟨fun q hq => hq, List.forall_mem_nil _⟩

theorem mem_flatMap_madeBy :
    q ∈ ts.flatMap madeBy ↔ ∃ u ∈ ts, u.ino.kind = .dir ∧ q <+: u.path := by
  simp only [List.mem_flatMap, madeBy]
  refine exists_congr (fun u => and_congr_right (fun _ => ?_))
  split_ifs with hdir
  · simp [hdir]
  · simp [hdir]

/-- The directories of a run: the output directory, and those of the inodes with all above them. -/
def InTree (ts : List Turn) (q : Path) : Prop :=
  q = [] ∨ ∃ u ∈ ts, u.ino.kind = .dir ∧ q <+: u.path

theorem makeDirtree_makes (h : makeDirtree now ts fs = some fs') :
    ∀ q, InTree ts q → fs'.IsDir q := by
  obtain ⟨fs₁, h₁, h₂⟩ := Option.bind_eq_some_iff.mp h
  have hroot := (createDirectory_makes h₁).makes [] List.mem_cons_self
  have hmakes := makes_foldlM (fun _ _ _ h => createDir_makes h) h₂
  rintro q (rfl | hq)
  · exact hmakes.keeps _ hroot
  · exact hmakes.makes q (mem_flatMap_madeBy.mpr hq)

theorem exists_makeDirtree (hclear : ∀ q, InTree ts q → fs.file q = none) (now : ℤ) :
    ∃ fs', makeDirtree now ts fs = some fs' := by
  obtain ⟨fs₁, h₁⟩ := exists_createDirectory (hclear [] (Or.inl rfl)) (Or.inl rfl) now
  have hroot := (createDirectory_makes h₁).makes [] List.mem_cons_self
  have hfile₁ : fs₁.file = fs.file := file_createDirectory h₁
  have hturns : ∀ (us : List Turn), us ⊆ ts → ∀ fs₂ : FileSystem, fs₂.file = fs.file →
      fs₂.IsDir [] → ∃ fs₃, us.foldlM Turn.createDir fs₂ = some fs₃ := by
    intro us
    induction us with
    | nil => exact fun _ fs₂ _ _ => ⟨fs₂, rfl⟩
    | cons u us ih =>
      intro hsub fs₂ hfile₂ hroot₂
      have hu : u ∈ ts := hsub List.mem_cons_self
      have hstep : ∃ fs₃, u.createDir fs₂ = some fs₃ ∧ fs₃.file = fs.file := by
        unfold Turn.createDir
        split
        · rename_i hdir
          have hfree : ∀ q, q <+: u.path → fs₂.file q = none := by
            intro q hq
            rw [hfile₂]
            exact hclear q (Or.inr ⟨u, hu, hdir, hq⟩)
          obtain ⟨fs₃, h₃⟩ := exists_createDirectories hfree hroot₂ u.created
          exact ⟨fs₃, h₃, (file_foldlM (fun _ _ _ => file_createDirectory) h₃).trans hfile₂⟩
        · exact ⟨fs₂, rfl, hfile₂⟩
      obtain ⟨fs₃, h₃, hfile₃⟩ := hstep
      obtain ⟨fs₄, h₄⟩ := ih (fun x hx => hsub (List.mem_cons_of_mem u hx)) fs₃ hfile₃
        ((createDir_makes h₃).keeps _ hroot₂)
      refine ⟨fs₄, ?_⟩
      rw [List.foldlM_cons, h₃]
      exact h₄
  obtain ⟨fs₂, h₂⟩ := hturns ts (List.Subset.refl ts) fs₁ hfile₁ hroot
  refine ⟨fs₂, ?_⟩
  rw [makeDirtree, h₁]
  exact h₂

structure Recovers (env : Env) (fuel : ℕ) (fs fs' : FileSystem) (t : Turn) : Prop where
  dir : t.ino.kind = .dir → ∃ time, Inode.setTimes env .quiet t.ino.byteOffset = .ret time
  file : t.ino.kind = .file → ∃ b c f, FileInode.recover env fuel t.early .quiet t.now
    t.ino.byteOffset (fs.file t.path) b = some ⟨.ret (), c, some f⟩ ∧ fs'.file t.path = some f

def Free (ts : List Turn) (q : Path) : Prop := ∀ t ∈ ts, t.ino.kind = .file → t.path ≠ q

theorem recoverAt_file {b c : Buffer}
    (h : FileInode.recoverAt env fuel t fs b = some (fs', c)) :
    ∃ f, FileInode.recover env fuel t.early .quiet t.now t.ino.byteOffset (fs.file t.path) b
        = some ⟨.ret (), c, some f⟩ ∧ fs'.file = Function.update fs.file t.path (some f) ∧
      ∀ q, (fs.dirTime q).isSome = true → (fs'.dirTime q).isSome = true := by
  unfold FileInode.recoverAt at h
  split at h
  · rename_i c' file hrec
    obtain ⟨f, hf⟩ := FileInode.exists_file_recover hrec
    dsimp only at hf
    subst hf
    dsimp only at h
    split_ifs at h
    · obtain ⟨rfl, rfl⟩ := Prod.mk.inj (Option.some.inj h)
      exact ⟨f, hrec, rfl, fun q hq => isSome_update hq⟩
    · obtain ⟨rfl, rfl⟩ := Prod.mk.inj (Option.some.inj h)
      exact ⟨f, hrec, rfl, fun q hq => hq⟩
  · cases h

theorem recoverAt_dir (h : DirInode.recoverAt env t fs = some fs') :
    (∃ time, Inode.setTimes env .quiet t.ino.byteOffset = .ret time) ∧ fs'.file = fs.file ∧
      ∀ q, (fs.dirTime q).isSome = true → (fs'.dirTime q).isSome = true := by
  unfold DirInode.recoverAt at h
  split at h
  · rename_i time htimes
    split_ifs at h
    rw [← Option.some.inj h]
    exact ⟨⟨time, htimes⟩, rfl, fun q hq => isSome_update hq⟩
  · cases h

/-- **What a turn does**: it recovers its inode, touches no file but that of its inode, and takes
away no directory. -/
theorem recover_recovers (h : t.recover env fuel s = some s') :
    Recovers env fuel s.1 s'.1 t ∧
      (∀ q, Free [t] q → s'.1.file q = s.1.file q) ∧
      ∀ q, Free [t] q → s.1.IsDir q → s'.1.IsDir q := by
  unfold Turn.recover at h
  cases hkind : t.ino.kind with
  | dir =>
    rw [hkind] at h
    obtain ⟨fs₁, hrec, rfl⟩ := Option.map_eq_some_iff.mp h
    obtain ⟨htimes, hfile, hthere⟩ := recoverAt_dir hrec
    refine ⟨⟨fun _ => htimes, fun hf => absurd (hkind.symm.trans hf) (by decide)⟩,
      fun q _ => congrFun hfile q, fun q _ hq => ⟨?_, hthere q hq.there⟩⟩
    exact (congrFun hfile q).trans hq.notFile
  | file =>
    rw [hkind] at h
    obtain ⟨f, hrec, hfile, hthere⟩ := recoverAt_file h
    have hframe : ∀ q, Free [t] q → s'.1.file q = s.1.file q := by
      intro q hq
      rw [hfile]
      exact Function.update_of_ne (fun heq => hq t List.mem_cons_self hkind heq.symm) _ _
    refine ⟨⟨fun hd => absurd (hkind.symm.trans hd) (by decide), fun _ => ⟨_, _, f, hrec, ?_⟩⟩,
      hframe, fun q hfree hq => ⟨(hframe q hfree).trans hq.notFile, hthere q hq.there⟩⟩
    rw [hfile, Function.update_self]
  | _ =>
    rw [hkind] at h
    rw [← Option.some.inj h]
    exact ⟨⟨fun hd => absurd (hkind.symm.trans hd) (by decide),
      fun hf => absurd (hkind.symm.trans hf) (by decide)⟩, fun _ _ => rfl, fun _ _ hq => hq⟩

theorem free_cons : Free (t :: ts) q ↔ Free [t] q ∧ Free ts q := by
  rw [Free, List.forall_mem_cons, Free, List.forall_mem_singleton, Free]

/-- **What all turns do.**  The paths are different, so every inode finds the file at its path as
it was at the start, and leaves it as it is in the end. -/
theorem recoverIterative_recovers : ∀ {ts : List Turn} {s s' : FileSystem × Buffer},
    (ts.map Turn.path).Nodup → ts.foldlM (Turn.recover env fuel) s = some s' →
    (∀ t ∈ ts, Recovers env fuel s.1 s'.1 t) ∧
      (∀ q, Free ts q → s'.1.file q = s.1.file q) ∧
      ∀ q, Free ts q → s.1.IsDir q → s'.1.IsDir q := by
  intro ts
  induction ts with
  | nil =>
    intro s s' _ h
    rw [← Option.some.inj h]
    exact ⟨List.forall_mem_nil _, fun _ _ => rfl, fun _ _ hq => hq⟩
  | cons t ts ih =>
    intro s s' hnodup h
    rw [List.map_cons, List.nodup_cons] at hnodup
    rw [List.foldlM_cons] at h
    obtain ⟨s₁, h₁, h₂⟩ := Option.bind_eq_some_iff.mp h
    obtain ⟨hself, hfile₁, hdirs₁⟩ := recover_recovers h₁
    obtain ⟨hothers, hfile₂, hdirs₂⟩ := ih hnodup.2 h₂
    have hfree : Free ts t.path := by
      intro u hu _ heq
      exact hnodup.1 (heq ▸ List.mem_map_of_mem hu)
    have hfree' : ∀ u ∈ ts, Free [t] u.path := by
      intro u hu
      refine List.forall_mem_singleton.mpr (fun _ heq => ?_)
      exact hnodup.1 (heq ▸ List.mem_map_of_mem hu)
    refine ⟨List.forall_mem_cons.mpr ⟨⟨hself.dir, fun hf => ?_⟩, fun u hu => ⟨?_, fun hf => ?_⟩⟩,
      fun q hq => ?_, fun q hq hdir => ?_⟩
    · obtain ⟨b, c, f, hrec, hleft⟩ := hself.file hf
      exact ⟨b, c, f, hrec, (hfile₂ _ hfree).trans hleft⟩
    · exact (hothers u hu).dir
    · obtain ⟨b, c, f, hrec, hleft⟩ := (hothers u hu).file hf
      rw [hfile₁ _ (hfree' u hu)] at hrec
      exact ⟨b, c, f, hrec, hleft⟩
    · rw [hfile₂ q (free_cons.mp hq).2, hfile₁ q (free_cons.mp hq).1]
    · exact hdirs₂ q (free_cons.mp hq).2 (hdirs₁ q (free_cons.mp hq).1 hdir)

/-! ### Runs that go through -/

/-- What `recover` needs of an inode: the dinode of a directory, and the extents of a file that is
not skipped. -/
structure CanRecover (env : Env) (fuel : ℕ) (fs : FileSystem) (t : Turn) : Prop where
  dir : t.ino.kind = .dir → ∃ time, Inode.setTimes env .quiet t.ino.byteOffset = .ret time
  file : t.ino.kind = .file →
    FileInode.skips env .quiet t.ino.byteOffset (fs.file t.path) = .ret false →
      FileInode.Collected env fuel t.ino.byteOffset

/-- The paths are different, and every file is in a directory of the run, but not where one is. -/
structure Layout (ts : List Turn) : Prop where
  nodup : (ts.map Turn.path).Nodup
  apart : ∀ t ∈ ts, t.ino.kind = .file → ¬ InTree ts t.path
  inDir : ∀ t ∈ ts, t.ino.kind = .file → InTree ts t.path.dropLast

theorem Layout.free (h : Layout ts) (hq : InTree ts q) : Free ts q := by
  intro t ht hfile heq
  exact h.apart t ht hfile (heq ▸ hq)

theorem Recovers.canRecover (h : Recovers env fuel fs fs' t) : CanRecover env fuel fs t := by
  refine ⟨h.dir, fun hfile hskip => ?_⟩
  obtain ⟨b, c, f, hrec, _⟩ := h.file hfile
  exact (FileInode.isRet_recover_iff t.early t.now b).mp ⟨_, hrec, rfl⟩ hskip rfl

theorem exists_recover (h : CanRecover env fuel s.1 t)
    (hdir : t.ino.kind = .dir → s.1.IsDir t.path)
    (hin : t.ino.kind = .file → s.1.IsDir t.path.dropLast) :
    ∃ s', t.recover env fuel s = some s' := by
  unfold Turn.recover
  cases hkind : t.ino.kind with
  | dir =>
    obtain ⟨time, htimes⟩ := h.dir hkind
    unfold DirInode.recoverAt
    rw [htimes]
    dsimp only
    rw [if_pos (hdir hkind).there]
    exact ⟨_, rfl⟩
  | file =>
    obtain ⟨r, hrec, hret⟩ := (FileInode.isRet_recover_iff t.early t.now s.2).mpr
      (fun hskip _ => h.file hkind hskip)
    obtain ⟨u, ho⟩ := Outcome.isRet_iff.mp hret
    have hresult : r = ⟨.ret u, r.buffer, r.file⟩ := by
      rw [← ho]
    rw [hresult] at hrec
    unfold FileInode.recoverAt
    rw [hrec]
    dsimp only
    split_ifs with hnew hthere
    · exact ⟨_, rfl⟩
    · exact absurd (hin hkind).there hthere
    · exact ⟨_, rfl⟩
  | _ => exact ⟨_, rfl⟩

theorem exists_recoverIterative {D : Path → Prop} : ∀ {ts : List Turn} {s : FileSystem × Buffer},
    (ts.map Turn.path).Nodup → (∀ t ∈ ts, CanRecover env fuel s.1 t) →
    (∀ t ∈ ts, t.ino.kind = .dir → D t.path) →
    (∀ t ∈ ts, t.ino.kind = .file → D t.path.dropLast ∧ ¬ D t.path) →
    (∀ q, D q → s.1.IsDir q) → ∃ s', ts.foldlM (Turn.recover env fuel) s = some s' := by
  intro ts
  induction ts with
  | nil => exact fun _ _ _ _ _ => ⟨_, rfl⟩
  | cons t ts ih =>
    intro s hnodup hcan hdirs hfiles hD
    rw [List.map_cons, List.nodup_cons] at hnodup
    obtain ⟨hcan₁, hcan⟩ := List.forall_mem_cons.mp hcan
    obtain ⟨hdir₁, hdirs⟩ := List.forall_mem_cons.mp hdirs
    obtain ⟨hfile₁, hfiles⟩ := List.forall_mem_cons.mp hfiles
    obtain ⟨s₁, h₁⟩ := exists_recover hcan₁ (fun hk => hD _ (hdir₁ hk))
      (fun hk => hD _ (hfile₁ hk).1)
    obtain ⟨_, hframe, hkeeps⟩ := recover_recovers h₁
    have hcan' : ∀ u ∈ ts, CanRecover env fuel s₁.1 u := by
      intro u hu
      refine ⟨(hcan u hu).dir, fun hfile => ?_⟩
      rw [hframe]
      · exact (hcan u hu).file hfile
      · refine List.forall_mem_singleton.mpr (fun _ heq => ?_)
        exact hnodup.1 (heq ▸ List.mem_map_of_mem hu)
    have hD' : ∀ q, D q → s₁.1.IsDir q := by
      intro q hq
      refine hkeeps q (List.forall_mem_singleton.mpr (fun hk heq => ?_)) (hD q hq)
      exact (hfile₁ hk).2 (heq ▸ hq)
    obtain ⟨s₂, h₂⟩ := ih hnodup.2 hcan' hdirs hfiles hD'
    refine ⟨s₂, ?_⟩
    rw [List.foldlM_cons, h₁]
    exact h₂

/-- **What a run does**: the directories are there, every inode is recovered from the file that was
at its path, and no other file is touched. -/
theorem recoverTree_recovers (h : Layout ts) (hrun : recoverTree env fuel now ts fs b = some fs') :
    (∀ q, InTree ts q → fs'.IsDir q) ∧ (∀ t ∈ ts, Recovers env fuel fs fs' t) ∧
      ∀ q, Free ts q → fs'.file q = fs.file q := by
  obtain ⟨fs₁, hdirs, hrun⟩ := Option.bind_eq_some_iff.mp hrun
  obtain ⟨s, hturns, rfl⟩ := Option.map_eq_some_iff.mp hrun
  obtain ⟨hrec, hframe, hkeeps⟩ := recoverIterative_recovers h.nodup hturns
  have hfile : fs₁.file = fs.file := file_makeDirtree hdirs
  dsimp only at hrec hframe hkeeps
  refine ⟨fun q hq => hkeeps q (h.free hq) (makeDirtree_makes hdirs q hq), fun t ht => ?_,
    fun q hq => by rw [hframe q hq, hfile]⟩
  obtain ⟨hdir, hof⟩ := hrec t ht
  refine ⟨hdir, fun hk => ?_⟩
  rw [hfile] at hof
  exact hof hk

/-- **A run goes through exactly if every inode can be recovered**, where no file is in the way. -/
theorem exists_recoverTree_iff (h : Layout ts) (hclear : ∀ q, InTree ts q → fs.file q = none)
    (now : ℤ) (b : Buffer) :
    (∃ fs', recoverTree env fuel now ts fs b = some fs') ↔ ∀ t ∈ ts, CanRecover env fuel fs t := by
  constructor
  · rintro ⟨fs', hrun⟩ t ht
    exact ((recoverTree_recovers h hrun).2.1 t ht).canRecover
  · intro hcan
    obtain ⟨fs₁, hdirs⟩ := exists_makeDirtree hclear now
    have hcan₁ : ∀ t ∈ ts, CanRecover env fuel fs₁ t := by
      intro t ht
      obtain ⟨hdir, hfile⟩ := hcan t ht
      refine ⟨hdir, ?_⟩
      rw [file_makeDirtree hdirs]
      exact hfile
    obtain ⟨s, hturns⟩ := exists_recoverIterative (s := (fs₁, b)) h.nodup hcan₁
      (fun t ht hk => Or.inr ⟨t, ht, hk, List.prefix_rfl⟩)
      (fun t ht hk => ⟨h.inDir t ht hk, h.apart t ht hk⟩) (makeDirtree_makes hdirs)
    refine ⟨s.1, ?_⟩
    rw [recoverTree, hdirs]
    show (ts.foldlM (Turn.recover env fuel) (fs₁, b)).map Prod.fst = _
    rw [hturns]
    rfl

/-! ### More runs -/

theorem exists_same (hsame : ts'.map Turn.same = ts.map Turn.same) (ht : t ∈ ts) :
    ∃ u ∈ ts', u.ino = t.ino ∧ u.path = t.path ∧ u.early = t.early := by
  have hmem : t.same ∈ ts'.map Turn.same := hsame ▸ List.mem_map_of_mem ht
  obtain ⟨u, hu, heq⟩ := List.mem_map.mp hmem
  obtain ⟨hino, hrest⟩ := Prod.mk.inj heq
  obtain ⟨hpath, hearly⟩ := Prod.mk.inj hrest
  exact ⟨u, hu, hino, hpath, hearly⟩

theorem InTree.of_same (hsame : ts'.map Turn.same = ts.map Turn.same) (hq : InTree ts q) :
    InTree ts' q := by
  rcases hq with rfl | ⟨t, ht, hdir, hpre⟩
  · exact Or.inl rfl
  · obtain ⟨u, hu, hino, hpath, _⟩ := exists_same hsame ht
    exact Or.inr ⟨u, hu, hino ▸ hdir, hpath ▸ hpre⟩

theorem Layout.of_same (h : Layout ts) (hsame : ts'.map Turn.same = ts.map Turn.same) :
    Layout ts' := by
  have hpaths : ∀ us : List Turn, us.map Turn.path = (us.map Turn.same).map (fun k => k.2.1) := by
    intro us
    rw [List.map_map]
    rfl
  refine ⟨?_, fun u hu hfile htree => ?_, fun u hu hfile => ?_⟩
  · rw [hpaths, hsame, ← hpaths]
    exact h.nodup
  · obtain ⟨t, ht, hino, hpath, _⟩ := exists_same hsame.symm hu
    exact h.apart t ht (hino ▸ hfile) (hpath ▸ htree.of_same hsame.symm)
  · obtain ⟨t, ht, hino, hpath, _⟩ := exists_same hsame.symm hu
    exact hpath ▸ (h.inDir t ht (hino ▸ hfile)).of_same hsame

/-- A run over the same inodes, at any times and with anything in the buffer. -/
def Runs (env : Env) (fuel : ℕ) (ts : List Turn) (fs fs' : FileSystem) : Prop :=
  ∃ ts' now b, ts'.map Turn.same = ts.map Turn.same ∧ recoverTree env fuel now ts' fs b = some fs'

variable {fs₁ fs₂ : FileSystem}

theorem Runs.recovers (h : Layout ts) (hrun : Runs env fuel ts fs fs') :
    (∀ q, InTree ts q → fs'.IsDir q) ∧ (∀ q, Free ts q → fs'.file q = fs.file q) ∧
      ∀ t ∈ ts, ∃ u, u.ino = t.ino ∧ u.path = t.path ∧ u.early = t.early ∧
        Recovers env fuel fs fs' u := by
  obtain ⟨ts', now, b, hsame, hrun⟩ := hrun
  obtain ⟨hdirs, hrec, hframe⟩ := recoverTree_recovers (h.of_same hsame) hrun
  refine ⟨fun q hq => hdirs q (hq.of_same hsame), fun q hq => hframe q (fun u hu hfile => ?_),
    fun t ht => ?_⟩
  · obtain ⟨t, ht, hino, hpath, _⟩ := exists_same hsame.symm hu
    exact hpath ▸ hq t ht (hino ▸ hfile)
  · obtain ⟨u, hu, hino, hpath, hearly⟩ := exists_same hsame ht
    exact ⟨u, hino, hpath, hearly, hrec u hu⟩

theorem Recovers.again {u : Turn} (hleak : FileInode.Leakless env fuel t.ino.byteOffset)
    (h : Recovers env fuel fs fs₁ t) (hino : u.ino = t.ino) (hpath : u.path = t.path)
    (hearly : u.early = t.early) (hfile : t.ino.kind = .file) (b : Buffer) :
    ∃ c f f', fs₁.file t.path = some f ∧ FileInode.recover env fuel u.early .quiet u.now
      u.ino.byteOffset (fs₁.file u.path) b = some ⟨.ret (), c, some f'⟩ ∧
        f'.content = f.content := by
  obtain ⟨_, _, f, hrec, hleft⟩ := h.file hfile
  obtain ⟨c, f', hagain, hcontent⟩ := FileInode.recover_again hleak hrec u.now b
  refine ⟨c, f, f', hleft, ?_, hcontent⟩
  rw [hino, hpath, hearly, hleft]
  exact hagain

theorem content_again (h : Layout ts)
    (hleak : ∀ t ∈ ts, t.ino.kind = .file → FileInode.Leakless env fuel t.ino.byteOffset)
    (hfirst : Runs env fuel ts fs fs₁) (hsecond : Runs env fuel ts fs₁ fs₂) (q : Path) :
    (fs₂.file q).map OutFile.content = (fs₁.file q).map OutFile.content := by
  obtain ⟨_, _, hrec₁⟩ := hfirst.recovers h
  obtain ⟨_, hframe, hrec₂⟩ := hsecond.recovers h
  by_cases hq : Free ts q
  · rw [hframe q hq]
  · obtain ⟨t, ht, hfile, rfl⟩ : ∃ t ∈ ts, t.ino.kind = .file ∧ t.path = q := by
      by_contra hnone
      exact hq (fun t ht hfile heq => hnone ⟨t, ht, hfile, heq⟩)
    obtain ⟨u₁, hino₁, hpath₁, hearly₁, h₁⟩ := hrec₁ t ht
    obtain ⟨u₂, hino₂, hpath₂, hearly₂, h₂⟩ := hrec₂ t ht
    obtain ⟨b, c, f₂, hrec, hleft⟩ := h₂.file (hino₂ ▸ hfile)
    have hleak₁ : FileInode.Leakless env fuel u₁.ino.byteOffset := hino₁ ▸ hleak t ht hfile
    obtain ⟨c', f, f', hthere, hagain, hcontent⟩ := h₁.again hleak₁ (hino₂.trans hino₁.symm)
      (hpath₂.trans hpath₁.symm) (hearly₂.trans hearly₁.symm) (hino₁ ▸ hfile) b
    have hf := (Recovered.mk.inj (Option.some.inj (hrec.symm.trans hagain))).2.2
    rw [hpath₂] at hleft
    rw [hpath₁] at hthere
    rw [hleft, hthere, Option.some.inj hf, Option.map_some, Option.map_some, hcontent]

theorem exists_again (h : Layout ts)
    (hleak : ∀ t ∈ ts, t.ino.kind = .file → FileInode.Leakless env fuel t.ino.byteOffset)
    (hfirst : Runs env fuel ts fs fs₁) (hsame : ts'.map Turn.same = ts.map Turn.same) (now : ℤ)
    (b : Buffer) : ∃ fs₂, recoverTree env fuel now ts' fs₁ b = some fs₂ := by
  obtain ⟨hdirs, _, hrec⟩ := hfirst.recovers h
  refine (exists_recoverTree_iff (h.of_same hsame)
    (fun q hq => (hdirs q (hq.of_same hsame.symm)).notFile) now b).mpr (fun u hu => ?_)
  obtain ⟨t, ht, hino, hpath, hearly⟩ := exists_same hsame.symm hu
  obtain ⟨u₁, hino₁, hpath₁, hearly₁, h₁⟩ := hrec t ht
  refine ⟨fun hdir => ?_, fun hfile => ?_⟩
  · obtain ⟨time, htimes⟩ := h₁.dir (by rw [hino₁, hino]; exact hdir)
    exact ⟨time, by rw [← hino, ← hino₁]; exact htimes⟩
  · have hfile₁ : u₁.ino.kind = .file := by rw [hino₁, hino]; exact hfile
    have hleak₁ : FileInode.Leakless env fuel u₁.ino.byteOffset :=
      hino₁ ▸ hleak t ht (hino ▸ hfile)
    obtain ⟨c, f, f', _, hagain, _⟩ := h₁.again hleak₁ (hino.symm.trans hino₁.symm)
      (hpath.symm.trans hpath₁.symm) (hearly.symm.trans hearly₁.symm) hfile₁ b
    exact fun hskip => (FileInode.isRet_recover_iff u.early u.now b).mp ⟨_, hagain, rfl⟩ hskip rfl

/-- A run over what a run has left creates no file, so the directories get their times. -/
theorem times_again (h : Layout ts) (hfirst : Runs env fuel ts fs fs₁)
    (hsecond : Runs env fuel ts fs₁ fs₂) : TimesKept env ts fs₂ := by
  obtain ⟨_, _, hrec⟩ := hfirst.recovers h
  obtain ⟨ts', now, b, hsame, hrun⟩ := hsecond
  have hlayout := h.of_same hsame
  obtain ⟨time₀, htime⟩ := dirTime_recoverTree hlayout.nodup hrun
  intro t ht hdir
  obtain ⟨u, hu, hino, hpath, _⟩ := exists_same hsame ht
  have hudir : u.ino.kind = .dir := hino ▸ hdir
  obtain ⟨before, after, rfl⟩ := List.append_of_mem hu
  have hcreated : createdIn fs₁.file u.path after = [] := by
    refine List.filter_eq_nil_iff.mpr (fun w hw hcond => ?_)
    obtain ⟨hfile, hnone, _⟩ := of_decide_eq_true hcond
    obtain ⟨v, hv, hvino, hvpath, _⟩ := exists_same hsame.symm
      (List.mem_append_right _ (List.mem_cons_of_mem u hw))
    obtain ⟨u₁, hino₁, hpath₁, _, h₁⟩ := hrec v hv
    obtain ⟨_, _, f, _, hleft⟩ := h₁.file (by rw [hino₁, hvino]; exact hfile)
    rw [hpath₁, hvpath] at hleft
    rw [hleft] at hnone
    cases hnone
  have hmtime : mtime env u = mtime env t := by
    rw [mtime, mtime, hino]
  rw [← hpath, htime, lastFor_dir hlayout.nodup hudir, hcreated, List.getLast?_nil,
    Option.getD_none, Option.elim_some, stamp, hudir, ← hmtime]

/-- **A recovered tree is recovered again, as often as one likes**: every further run goes through,
the files keep their content, and the directories have the times that their dinodes say. -/
theorem recoverTree_again (h : Layout ts)
    (hleak : ∀ t ∈ ts, t.ino.kind = .file → FileInode.Leakless env fuel t.ino.byteOffset)
    (hfirst : Runs env fuel ts fs fs₁) (hmore : Relation.ReflTransGen (Runs env fuel ts) fs₁ fs₂)
    (hsame : ts'.map Turn.same = ts.map Turn.same) (now : ℤ) (b : Buffer) :
    ∃ fs₃, recoverTree env fuel now ts' fs₂ b = some fs₃ ∧ TimesKept env ts fs₃ ∧
      ∀ q, (fs₃.file q).map OutFile.content = (fs₁.file q).map OutFile.content := by
  have hstart : (∃ fs₀, Runs env fuel ts fs₀ fs₂) ∧
      ∀ q, (fs₂.file q).map OutFile.content = (fs₁.file q).map OutFile.content := by
    induction hmore with
    | refl => exact ⟨⟨fs, hfirst⟩, fun _ => rfl⟩
    | tail _ hrun ih =>
      obtain ⟨⟨fs₀, hbefore⟩, hcontent⟩ := ih
      exact ⟨⟨_, hrun⟩, fun q => (content_again h hleak hbefore hrun q).trans (hcontent q)⟩
  obtain ⟨⟨fs₀, hbefore⟩, hcontent⟩ := hstart
  obtain ⟨fs₃, hrun⟩ := exists_again h hleak hbefore hsame now b
  have hruns : Runs env fuel ts fs₂ fs₃ := ⟨ts', now, b, hsame, hrun⟩
  exact ⟨fs₃, hrun, times_again h hbefore hruns,
    fun q => (content_again h hleak hbefore hruns q).trans (hcontent q)⟩

/-! ### An example -/

/-- Two files and a directory: a file of 1300 bytes with a block, a hole and a block, and one of 512
bytes. -/
def heldTree : Env :=
  { Device.disk [(24, 0x14), (25, 5), (240, 2), (242, 4), (264, 1), (268, 4), (276, 2), (280, 1),
      (284, 5), (584, 5), (1049, 2), (1264, 2), (1266, 3), (1288, 1), (1292, 6), (2048, 7),
      (2560, 8), (3072, 9)] with
    stSize := 4096
    stSize_lt := by decide }.zeroed

def heldTurn (kind : Kind) (byteOffset : ℕ) (path : Path) : Turn :=
  ⟨.construct kind (heldTree.readDinode byteOffset) byteOffset, path, 100, 100, 0⟩

/-- The directory comes before its files. -/
def heldTurns : List Turn :=
  [heldTurn .dir 512 [['d']], heldTurn .file 0 [['d'], ['f']], heldTurn .file 1024 [['d'], ['g']]]

def heldByte (k : ℕ) (f : OutFile) : ℕ × UInt8 := (f.content.size, f.content.byte k)

theorem map_heldByte (k : ℕ) (f : Option OutFile) :
    f.map (heldByte k) = (f.map OutFile.content).map (fun c => (c.size, c.byte k)) := by
  rw [Option.map_map]
  rfl

theorem layout_heldTurns : Layout heldTurns := by
  refine ⟨by decide, ?_, ?_⟩
  · rintro t ht hfile (hroot | ⟨u, hu, hdir, hpre⟩)
    · revert t
      decide
    · revert t u
      decide
  · intro t ht hfile
    refine Or.inr ⟨heldTurn .dir 512 [['d']], List.mem_cons_self, rfl, ?_⟩
    revert t
    decide

def heldXads : List Xad := [.of 0 1 4, .of 2 1 5]

theorem whole_heldXads : ∀ x ∈ heldXads, FileInode.Whole heldTree x := by
  intro x hx
  rcases List.mem_pair.mp hx with rfl | rfl
  · exact ⟨by decide, by decide⟩
  · exact ⟨by decide, by decide⟩

theorem collectXads_heldTree :
    FileInode.collectXads heldTree 0 (heldTree.readDinode 0) = some (.ret heldXads) := by decide

theorem leakless_heldTurns : ∀ t ∈ heldTurns, t.ino.kind = .file →
    FileInode.Leakless heldTree 0 t.ino.byteOffset := by
  have hleak : ∀ bo xads, heldTree.device.Slot bo →
      FileInode.collectXads heldTree 0 (heldTree.readDinode bo) = some (.ret xads) →
      (∀ x ∈ xads, FileInode.Whole heldTree x) → FileInode.Leakless heldTree 0 bo := by
    intro bo xads hslot hxads hwhole d xads' hd hxads'
    obtain rfl := Outcome.ret.inj ((Env.getDinode_of_slot hslot).symm.trans hd)
    obtain rfl := Outcome.ret.inj (Option.some.inj (hxads.symm.trans hxads'))
    exact fun x hx => (hwhole x hx).piecesFit
  intro t ht hfile
  rcases List.mem_cons.mp ht with rfl | ht
  · cases hfile
  · rcases List.mem_pair.mp ht with rfl | rfl
    · exact hleak 0 heldXads ⟨by decide, by decide⟩ collectXads_heldTree whole_heldXads
    · refine hleak 1024 [.of 0 1 6] ⟨by decide, by decide⟩ (by decide) (fun x hx => ?_)
      obtain rfl := List.mem_singleton.mp hx
      exact ⟨by decide, by decide⟩

/-- The second run gives the directory its own time, and leaves the files as they are. -/
theorem recoverTree_again_heldTurns : ∃ fs₁ fs₂,
    recoverTree heldTree 0 100 heldTurns nothing (fun _ => 0) = some fs₁ ∧
      fs₁.dirTime [['d']] = some 100 ∧
      recoverTree heldTree 0 200 heldTurns fs₁ (fun _ => 9) = some fs₂ ∧
      fs₂.dirTime [['d']] = some 5 ∧
      (fs₂.file [['d'], ['f']]).map (heldByte 1024) = some (1536, 8) := by
  have hleft : (recoverTree heldTree 0 100 heldTurns nothing (fun _ => 0)).map (fun fs =>
      (fs.dirTime [['d']], (fs.file [['d'], ['f']]).map (heldByte 1024)))
        = some (some 100, some (1536, 8)) := by decide +kernel
  obtain ⟨fs₁, hrun, heq⟩ := Option.map_eq_some_iff.mp hleft
  obtain ⟨hnow, hbyte⟩ := Prod.mk.inj heq
  obtain ⟨fs₂, hagain, hkept, hcontent⟩ := recoverTree_again layout_heldTurns leakless_heldTurns
    ⟨_, _, _, rfl, hrun⟩ .refl rfl 200 (fun _ => 9)
  refine ⟨fs₁, fs₂, hrun, hnow, hagain, hkept _ List.mem_cons_self rfl, ?_⟩
  rw [map_heldByte, hcontent, ← map_heldByte, hbyte]

end Recoverer

end Jfsrec
