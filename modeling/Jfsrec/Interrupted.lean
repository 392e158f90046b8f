import Jfsrec.Reruns

/-!
# Recoveries that are killed

A recovery may be killed while it makes the directories, between two inodes, or while it writes
a file, of which it leaves the beginning.  The next run takes that file for one to be skipped if it
is later than `di_otime`.  `recoverTree_after_kills` says that this is all there is to lose: after
any number of runs that were killed, the next one makes every other file what it would have made it
without them.
-/

namespace Jfsrec

open Lib Recoverer

namespace FileInode

variable {E : Env → ℕ → Prop} {env env' : Env} {fuel fuel' early byteOffset : ℕ} {now now' : ℤ}
  {file file' : Option OutFile} {f f₀ : OutFile} {b b₀ c c₀ : Buffer} {u u₀ : Unit}
  {content : SparseFile} {torn torn' : Prop}

/-! ### One file -/

/-- Runs with these environments and this much fuel skip a file alike, and where they save it they
give it this content. -/
structure Alike (E : Env → ℕ → Prop) (early byteOffset : ℕ) (content : SparseFile) : Prop where
  skips : ∀ env fuel env' fuel', E env fuel → E env' fuel' → ∀ file,
    skips env .quiet byteOffset file = skips env' .quiet byteOffset file
  content : ∀ env fuel, E env fuel → ∀ now file b c f,
    FileInode.skips env .quiet byteOffset file = .ret false →
      recover env fuel early .quiet now byteOffset file b = some ⟨.ret (), c, some f⟩ →
        f.content = content

/-- What a file gets when it is saved. -/
theorem content_of_saved {s : Saved} {ops : List FileOp}
    (hskip : skips env .quiet byteOffset file = .ret false)
    (hsave : saveFile env fuel early (.ret ()) byteOffset b = some s) (hops : s.ops = some ops)
    (hr : recover env fuel early .quiet now byteOffset file b = some ⟨.ret u, c, some f⟩) :
    f.content = SparseFile.empty.run ops := by
  obtain ⟨r, hr', hcontent⟩ := recover_of_not_skips now hskip hsave hops
  obtain rfl := Option.some.inj (hr.symm.trans hr')
  exact Option.some.inj hcontent

/-- Where no extent gives a file what the buffer held, runs with the same environment are alike. -/
theorem exists_alike (hleak : Leakless env fuel byteOffset) (early : ℕ) :
    ∃ content, Alike (fun e n => e = env ∧ n = fuel) early byteOffset content := by
  have hskips : ∀ e n e' n', (e = env ∧ n = fuel) → (e' = env ∧ n' = fuel) → ∀ file,
      skips e .quiet byteOffset file = skips e' .quiet byteOffset file := by
    rintro e n e' n' ⟨rfl, rfl⟩ ⟨rfl, rfl⟩ file
    rfl
  cases hsaved : saveFile env fuel early (.ret ()) byteOffset (fun _ => 0) with
  | none =>
    refine ⟨.empty, hskips, ?_⟩
    rintro e n ⟨rfl, rfl⟩ now file b c f hskip hr
    obtain ⟨s, ops, hsave, hops⟩ := exists_ops hskip hr
    have hcongr := saveFile_congr hleak early (fun _ => 0) b
    rw [hsaved, hsave] at hcongr
    cases hcongr
  | some s₀ =>
    refine ⟨s₀.ops.elim .empty SparseFile.empty.run, hskips, ?_⟩
    rintro e n ⟨rfl, rfl⟩ now file b c f hskip hr
    obtain ⟨s, ops, hsave, hops⟩ := exists_ops hskip hr
    have hcongr := saveFile_congr hleak early (fun _ => 0) b
    rw [hsaved, hsave] at hcongr
    have hsame : s₀.ops = s.ops := (Prod.mk.inj (Option.some.inj hcongr)).2
    rw [hsame, hops]
    exact content_of_saved hskip hsave hops hr

/-- What runs have made of the file `file`, one of which has torn it or not.  What is saved now
would have been saved at the start, and a file that is not torn is as it was or has been saved. -/
structure Stands (env : Env) (byteOffset : ℕ) (file : Option OutFile) (content : SparseFile)
    (torn : Prop) (file' : Option OutFile) : Prop where
  skips : skips env .quiet byteOffset file' = .ret false →
    skips env .quiet byteOffset file = .ret false
  content : torn ∨ file' = file ∨ FileInode.skips env .quiet byteOffset file = .ret false ∧
    file'.map OutFile.content = some content

theorem stands_start : Stands env byteOffset file content torn file :=
  ⟨id, Or.inr (Or.inl rfl)⟩

/-- **A run that gets behind the file** keeps to it. -/
theorem Stands.recover (ha : Alike E early byteOffset content) (hE : E env fuel)
    (hE' : E env' fuel') (h : Stands env byteOffset file content torn file')
    (hr : FileInode.recover env' fuel' early .quiet now byteOffset file' b
      = some ⟨.ret u, c, some f⟩) : Stands env byteOffset file content torn (some f) := by
  by_cases hskip : FileInode.skips env' .quiet byteOffset file' = .ret false
  · have hbefore := h.skips ((ha.skips _ _ _ _ hE hE' file').trans hskip)
    refine ⟨fun _ => hbefore, Or.inr (Or.inr ⟨hbefore, ?_⟩)⟩
    rw [Option.map_some, ha.content _ _ hE' _ _ _ _ _ hskip hr]
  · have hfile : some f = file' := recover_of_skips hskip hr
    rw [hfile]
    exact h

/-- **A run that is killed in the file** has been about to save it. -/
theorem Stands.cut (h : Stands env byteOffset file content torn file')
    (hskip : FileInode.skips env .quiet byteOffset file' = .ret false) (ht : torn') :
    Stands env byteOffset file content torn' (some f) :=
  ⟨fun _ => h.skips hskip, Or.inl ht⟩

theorem Stands.mono (h : Stands env byteOffset file content torn file') (ht : torn → torn') :
    Stands env byteOffset file content torn' file' :=
  ⟨h.skips, h.content.imp_left ht⟩

/-- **What the next run makes of it**, where one from the start makes `f₀` of the file. -/
theorem Stands.next (ha : Alike E early byteOffset content) (hE : E env fuel)
    (h : Stands env byteOffset file content torn file')
    (hr₀ : FileInode.recover env fuel early .quiet now byteOffset file b₀
      = some ⟨.ret u₀, c₀, some f₀⟩)
    (hr : FileInode.recover env fuel early .quiet now' byteOffset file' b
      = some ⟨.ret u, c, some f⟩) :
    f.content = f₀.content ∨
      torn ∧ FileInode.skips env .quiet byteOffset file' ≠ .ret false ∧ some f = file' := by
  by_cases hskip : FileInode.skips env .quiet byteOffset file' = .ret false
  · left
    rw [ha.content _ _ hE _ _ _ _ _ hskip hr, ha.content _ _ hE _ _ _ _ _ (h.skips hskip) hr₀]
  · have hfile : some f = file' := recover_of_skips hskip hr
    rcases h.content with ht | rfl | ⟨hbefore, hcontent⟩
    · exact Or.inr ⟨ht, hskip, hfile⟩
    · have hfile₀ : some f₀ = file' := recover_of_skips hskip hr₀
      left
      rw [Option.some.inj (hfile.trans hfile₀.symm)]
    · left
      rw [← hfile] at hcontent
      rw [ha.content _ _ hE _ _ _ _ _ hbefore hr₀]
      exact Option.some.inj hcontent

end FileInode

namespace FileSystem

variable {fs : FileSystem} {t : Turn} {f : OutFile} {q : Path}

def tear (fs : FileSystem) (t : Turn) (f : OutFile) : FileSystem :=
  let fs' := { fs with file := Function.update fs.file t.path (some f) }
  if (fs.file t.path).isNone then fs'.touch t.path t.now else fs'

theorem file_tear (fs : FileSystem) (t : Turn) (f : OutFile) :
    (fs.tear t f).file = Function.update fs.file t.path (some f) := by
  unfold tear
  dsimp only
  split_ifs <;> rfl

end FileSystem

namespace Recoverer

open FileSystem

variable {env : Env} {fuel : ℕ} {fs fs' fs₀ fs₁ fs₂ : FileSystem} {now now₀ : ℤ} {t u : Turn}
  {ts ts' us : List Turn} {b b₀ : Buffer} {p : Option Path} {q : Path} {torn : List Path}

/-! ### A run that is killed -/

/-- A recovery of the inodes `us` up to where it is killed: it makes `fs'` of `fs`, and leaves the
file at the path `p` in the middle. -/
inductive Killed (env : Env) (fuel : ℕ) (us : List Turn) (fs : FileSystem) :
    Option Path → FileSystem → Prop
  /-- In `create_directories` for the inode `t`. -/
  | inDirtree {before after : List Turn} {t : Turn} {now : ℤ} {fs₁ fs' : FileSystem} (k : ℕ)
      (hus : us = before ++ t :: after) (hbefore : makeDirtree now before fs = some fs₁)
      (hdir : t.ino.kind = .dir)
      (ht : (t.path.inits.take k).foldlM (createDirectory t.created) fs₁ = some fs') :
      Killed env fuel us fs none fs'
  /-- Behind the inodes `before`, which may be all. -/
  | between {before after : List Turn} {now : ℤ} {fs₁ fs' : FileSystem} {b b' : Buffer}
      (hus : us = before ++ after) (hdirs : makeDirtree now us fs = some fs₁)
      (hbefore : before.foldlM (Turn.recover env fuel) (fs₁, b) = some (fs', b')) :
      Killed env fuel us fs none fs'
  /-- In operation `i` of `save_file` for the inode `t`, of which `n` bytes are written, or behind
  the last one. -/
  | inSave {before after : List Turn} {t : Turn} {now : ℤ} {fs₁ fs₂ : FileSystem} {b b' : Buffer}
      {s : Saved} {ops : List FileOp} (i n : ℕ)
      (hus : us = before ++ t :: after) (hdirs : makeDirtree now us fs = some fs₁)
      (hbefore : before.foldlM (Turn.recover env fuel) (fs₁, b) = some (fs₂, b'))
      (hfile : t.ino.kind = .file)
      (hskip : FileInode.skips env .quiet t.ino.byteOffset (fs₂.file t.path) = .ret false)
      (hthere : (fs₂.file t.path).isSome ∨ (fs₂.dirTime t.path.dropLast).isSome)
      (hsave : FileInode.saveFile env fuel t.early (.ret ()) t.ino.byteOffset b' = some s)
      (hops : s.ops = some ops) :
      Killed env fuel us fs (some t.path)
        (fs₂.tear t ⟨SparseFile.empty.run (SparseFile.done ops i n), t.now⟩)

/-- What has become of the file at a path: a run has got behind it, or was killed in it. -/
structure Tried (env : Env) (fuel : ℕ) (fs fs' : FileSystem) (p : Option Path) (u : Turn) :
    Prop where
  file : u.ino.kind = .file
  tried : (∃ b c f, FileInode.recover env fuel u.early .quiet u.now u.ino.byteOffset
      (fs.file u.path) b = some ⟨.ret (), c, some f⟩ ∧ fs'.file u.path = some f) ∨
    p = some u.path ∧
      FileInode.skips env .quiet u.ino.byteOffset (fs.file u.path) = .ret false ∧
      ∃ f, fs'.file u.path = some f

theorem tried_of_foldlM {s s' : FileSystem × Buffer} (hnodup : (us.map Turn.path).Nodup)
    (h : us.foldlM (Turn.recover env fuel) s = some s') (q : Path) :
    s'.1.file q = s.1.file q ∨ ∃ u ∈ us, u.path = q ∧ Tried env fuel s.1 s'.1 none u := by
  obtain ⟨hrec, hframe, _⟩ := recoverIterative_recovers hnodup h
  by_cases hq : Free us q
  · exact Or.inl (hframe q hq)
  · obtain ⟨u, hu, hfile, rfl⟩ : ∃ u ∈ us, u.ino.kind = .file ∧ u.path = q := by
      by_contra hnone
      exact hq (fun u hu hfile heq => hnone ⟨u, hu, hfile, heq⟩)
    exact Or.inr ⟨u, hu, rfl, hfile, Or.inl ((hrec u hu).file hfile)⟩

/-- **What a run that is killed does to a file.** -/
theorem Killed.tried (hnodup : (us.map Turn.path).Nodup) (h : Killed env fuel us fs p fs')
    (q : Path) :
    fs'.file q = fs.file q ∨ ∃ u ∈ us, u.path = q ∧ Tried env fuel fs fs' p u := by
  cases h with
  | inDirtree k hus hbefore _ ht =>
    left
    rw [file_foldlM (fun _ _ _ => file_createDirectory) ht, file_makeDirtree hbefore]
  | @between before after _ fs₁ _ _ _ hus hdirs hbefore =>
    subst hus
    rw [List.map_append] at hnodup
    have hfile := file_makeDirtree hdirs
    rcases tried_of_foldlM hnodup.of_append_left hbefore q with heq | ⟨u, hu, hq, hkind, htried⟩
    · exact Or.inl (heq.trans (congrFun hfile q))
    · refine Or.inr ⟨u, List.mem_append_left _ hu, hq, hkind, ?_⟩
      rw [← hfile]
      exact htried
  | @inSave before after t _ fs₁ fs₂ _ _ s ops i n hus hdirs hbefore hkind hskip _ _ _ =>
    subst hus
    rw [List.map_append, List.map_cons] at hnodup
    have hfile := file_makeDirtree hdirs
    obtain ⟨_, hframe, _⟩ := recoverIterative_recovers hnodup.of_append_left hbefore
    have hother : Free before t.path := by
      intro u hu _ heq
      exact (List.nodup_append.mp hnodup).2.2 _ (List.mem_map_of_mem hu) _ List.mem_cons_self heq
    have htpath : fs₂.file t.path = fs.file t.path :=
      (hframe _ hother).trans (congrFun hfile _)
    by_cases hq : t.path = q
    · refine Or.inr ⟨t, List.mem_append_right _ List.mem_cons_self, hq, hkind,
        Or.inr ⟨rfl, htpath ▸ hskip, ⟨SparseFile.empty.run (SparseFile.done ops i n), t.now⟩, ?_⟩⟩
      rw [file_tear, Function.update_self]
    · have hleft : (fs₂.tear t ⟨SparseFile.empty.run (SparseFile.done ops i n), t.now⟩).file q
          = fs₂.file q := by
        rw [file_tear, Function.update_of_ne (Ne.symm hq)]
      rcases tried_of_foldlM hnodup.of_append_left hbefore q with heq | ⟨u, hu, rfl, hukind, hu'⟩
      · exact Or.inl (hleft.trans (heq.trans (congrFun hfile q)))
      · refine Or.inr ⟨u, List.mem_append_left _ hu, rfl, hukind, Or.inl ?_⟩
        rcases hu' with ⟨b, c, f, hrec, hf⟩ | ⟨hp, _⟩
        · rw [congrFun hfile u.path] at hrec
          exact ⟨b, c, f, hrec, hleft.trans hf⟩
        · cases hp

/-! ### One run after another -/

/-- Runs over the inodes `us` and `ts` do not get in each other's way: at a path there is the same
inode, and no file where the other one has a directory. -/
structure Fits (us ts : List Turn) : Prop where
  nodup : (us.map Turn.path).Nodup
  same : ∀ u ∈ us, ∀ t ∈ ts, u.path = t.path →
    u.ino.byteOffset = t.ino.byteOffset ∧ u.early = t.early
  apart : ∀ u ∈ us, u.ino.kind = .file → ¬ InTree ts u.path
  clear : ∀ t ∈ ts, t.ino.kind = .file → ¬ InTree us t.path

/-- Runs over inodes of `R` that are killed one after another, and the files in the middle of which
they were. -/
inductive Kills (E : Env → ℕ → Prop) (R : List Turn → Prop) (fs : FileSystem) :
    List Path → FileSystem → Prop
  | start : Kills E R fs [] fs
  | killed {torn : List Path} {fs₁ fs₂ : FileSystem} {us : List Turn} {p : Option Path} {env : Env}
      {fuel : ℕ} (h : Kills E R fs torn fs₁) (hE : E env fuel) (hus : R us)
      (hkill : Killed env fuel us fs₁ p fs₂) : Kills E R fs (torn ++ p.toList) fs₂

variable {E : Env → ℕ → Prop} {R R' : List Turn → Prop} {env' : Env} {fuel' : ℕ}
  {content : Turn → SparseFile}

theorem Kills.mono (h : Kills E R fs torn fs₁) (hR : ∀ us, R us → R' us) :
    Kills E R' fs torn fs₁ := by
  induction h with
  | start => exact .start
  | killed _ hE hus hkill ih => exact ih.killed hE (hR _ hus) hkill

/-- What the runs have left of the files of `ts`, and of the paths where its directories are. -/
structure KeptUp (env : Env) (ts : List Turn) (content : Turn → SparseFile) (fs : FileSystem)
    (torn : List Path) (fs' : FileSystem) : Prop where
  clear : ∀ q, InTree ts q → fs'.file q = fs.file q
  files : ∀ t ∈ ts, t.ino.kind = .file → FileInode.Stands env t.ino.byteOffset (fs.file t.path)
    (content t) (t.path ∈ torn) (fs'.file t.path)

theorem KeptUp.killed (h : KeptUp env ts content fs torn fs₁)
    (halike : ∀ t ∈ ts, t.ino.kind = .file →
      FileInode.Alike E t.early t.ino.byteOffset (content t)) (hE : E env fuel)
    (hE' : E env' fuel') (hfits : Fits us ts) (hkill : Killed env' fuel' us fs₁ p fs₂) :
    KeptUp env ts content fs (torn ++ p.toList) fs₂ := by
  refine ⟨fun q hq => ?_, fun t ht hfile => ?_⟩
  · rcases hkill.tried hfits.nodup q with heq | ⟨u, hu, rfl, htried⟩
    · exact heq.trans (h.clear q hq)
    · exact absurd hq (hfits.apart u hu htried.file)
  · have ha := halike t ht hfile
    have hstands := (h.files t ht hfile).mono (List.mem_append_left p.toList)
    rcases hkill.tried hfits.nodup t.path with heq | ⟨u, hu, hpath, _, htried⟩
    · rw [heq]
      exact hstands
    · obtain ⟨hoffset, hearly⟩ := hfits.same u hu t ht hpath
      rw [hoffset, hpath, hearly] at htried
      rcases htried with ⟨b, c, f, hrec, hleft⟩ | ⟨hp, hskip, f, hleft⟩
      · rw [hleft]
        exact hstands.recover ha hE hE' hrec
      · rw [hleft]
        refine hstands.cut ((ha.skips _ _ _ _ hE hE' _).trans hskip)
          (List.mem_append_right _ ?_)
        rw [hp]
        exact List.mem_singleton_self _

theorem Kills.keptUp (h : Kills E (fun us => Fits us ts) fs torn fs₁)
    (halike : ∀ t ∈ ts, t.ino.kind = .file →
      FileInode.Alike E t.early t.ino.byteOffset (content t)) (hE : E env fuel) :
    KeptUp env ts content fs torn fs₁ := by
  induction h with
  | start => exact ⟨fun _ _ => rfl, fun _ _ _ => FileInode.stands_start⟩
  | killed _ hE' hfits hkill ih => exact ih.killed halike hE hE' hfits hkill

/-- **The next run** goes through where one from the start does, and makes every file what that
would have made it, but for those in the middle of which a run was killed and that it skips. -/
theorem Kills.next (hkills : Kills E (fun us => Fits us ts) fs torn fs₁) (h : Layout ts)
    (halike : ∀ t ∈ ts, t.ino.kind = .file →
      FileInode.Alike E t.early t.ino.byteOffset (content t)) (hE : E env fuel)
    (hrun : recoverTree env fuel now₀ ts fs b₀ = some fs₀)
    (hsame : ts'.map Turn.same = ts.map Turn.same) (now : ℤ) (b : Buffer) :
    ∃ fs₂, recoverTree env fuel now ts' fs₁ b = some fs₂ ∧ (∀ q, InTree ts q → fs₂.IsDir q) ∧
      ∀ t ∈ ts, t.ino.kind = .file →
        (fs₂.file t.path).map OutFile.content = (fs₀.file t.path).map OutFile.content ∨
          t.path ∈ torn ∧ fs₂.file t.path = fs₁.file t.path ∧
            FileInode.skips env .quiet t.ino.byteOffset (fs₁.file t.path) ≠ .ret false := by
  have hkept := hkills.keptUp halike hE
  obtain ⟨hdirs₀, hrec₀, hframe₀⟩ := recoverTree_recovers h hrun
  have hlayout := h.of_same hsame
  have hfree : ∀ q, InTree ts' q → fs₁.file q = none := by
    intro q hq
    have hin := hq.of_same hsame.symm
    rw [hkept.clear q hin, ← hframe₀ q (h.free hin)]
    exact (hdirs₀ q hin).notFile
  have hcan : ∀ u ∈ ts', CanRecover env fuel fs₁ u := by
    intro u hu
    obtain ⟨t, ht, hino, hpath, _⟩ := exists_same hsame.symm hu
    obtain ⟨hdir, hcollect⟩ := (hrec₀ t ht).canRecover
    refine ⟨hino ▸ hdir, fun hfile hskip => ?_⟩
    have hkind : t.ino.kind = .file := hino ▸ hfile
    rw [← hino, ← hpath] at hskip
    exact hino ▸ hcollect hkind ((hkept.files t ht hkind).skips hskip)
  obtain ⟨fs₂, hrun₂⟩ := (exists_recoverTree_iff hlayout hfree now b).mpr hcan
  obtain ⟨hdirs, hrec, _⟩ := recoverTree_recovers hlayout hrun₂
  refine ⟨fs₂, hrun₂, fun q hq => hdirs q (hq.of_same hsame), fun t ht hfile => ?_⟩
  obtain ⟨u, hu, hino, hpath, hearly⟩ := exists_same hsame ht
  obtain ⟨_, _, f₀, hfirst, hthere₀⟩ := (hrec₀ t ht).file hfile
  obtain ⟨_, _, f, hnow, hthere⟩ := (hrec u hu).file (hino ▸ hfile)
  rw [hino, hpath, hearly] at hnow
  rw [hpath] at hthere
  rw [hthere, hthere₀]
  rcases (hkept.files t ht hfile).next (halike t ht hfile) hE hfirst hnow with
    hcontent | ⟨htorn, hskip, hsame⟩
  · left
    rw [Option.map_some, hcontent, Option.map_some]
  · exact Or.inr ⟨htorn, hsame, hskip⟩

/-- **A kill costs the file that is being written, and nothing else**, where no extent gives a file
what the buffer held. -/
theorem recoverTree_after_kills (h : Layout ts)
    (hleak : ∀ t ∈ ts, t.ino.kind = .file → FileInode.Leakless env fuel t.ino.byteOffset)
    (hrun : recoverTree env fuel now₀ ts fs b₀ = some fs₀)
    (hkills : Kills (fun e n => e = env ∧ n = fuel) (fun us => Fits us ts) fs torn fs₁)
    (hsame : ts'.map Turn.same = ts.map Turn.same) (now : ℤ) (b : Buffer) :
    ∃ fs₂, recoverTree env fuel now ts' fs₁ b = some fs₂ ∧ (∀ q, InTree ts q → fs₂.IsDir q) ∧
      ∀ t ∈ ts, t.ino.kind = .file →
        (fs₂.file t.path).map OutFile.content = (fs₀.file t.path).map OutFile.content ∨
          t.path ∈ torn ∧ fs₂.file t.path = fs₁.file t.path ∧
            FileInode.skips env .quiet t.ino.byteOffset (fs₁.file t.path) ≠ .ret false := by
  have halike : ∀ t : Turn, ∃ content, t ∈ ts → t.ino.kind = .file →
      FileInode.Alike (fun e n => e = env ∧ n = fuel) t.early t.ino.byteOffset content := by
    intro t
    by_cases ht : t ∈ ts ∧ t.ino.kind = .file
    · obtain ⟨content, ha⟩ := FileInode.exists_alike (hleak t ht.1 ht.2) t.early
      exact ⟨content, fun _ _ => ha⟩
    · exact ⟨.empty, fun hmem hkind => absurd ⟨hmem, hkind⟩ ht⟩
  choose content hcontent using halike
  exact hkills.next h hcontent ⟨rfl, rfl⟩ hrun hsame now b

theorem fits_of_same (h : Layout ts) (hsame : us.map Turn.same = ts.map Turn.same) :
    Fits us ts := by
  have hlayout := h.of_same hsame
  refine ⟨hlayout.nodup, fun u hu t ht hpath => ?_, fun u hu hfile hin => ?_,
    fun t ht hfile hin => ?_⟩
  · obtain ⟨v, hv, hino, hvpath, hearly⟩ := exists_same hsame.symm hu
    obtain rfl : v = t := List.inj_on_of_nodup_map h.nodup hv ht (hvpath.trans hpath)
    rw [hino, hearly]
    exact ⟨rfl, rfl⟩
  · exact hlayout.apart u hu hfile (hin.of_same hsame)
  · exact h.apart t ht hfile (hin.of_same hsame.symm)

/-- A run that is killed when it has written two bytes of the first file. -/
theorem kills_heldTurns : ∃ fs₁,
    Kills (fun e n => e = heldTree ∧ n = 0) (fun us => Fits us heldTurns) nothing
        [[['d'], ['f']]] fs₁ ∧
      (fs₁.file [['d'], ['f']]).map (heldByte 0) = some (2, 7) := by
  -- up to the file
  have hbefore : ((makeDirtree 100 heldTurns nothing).bind
      (DirInode.recoverAt heldTree (heldTurn .dir 512 [['d']]))).map
        (fun fs => ((fs.file [['d'], ['f']]).isNone, fs.dirTime [['d']]))
      = some (true, some 5) := by decide +kernel
  obtain ⟨fs, hfs, heq⟩ := Option.map_eq_some_iff.mp hbefore
  obtain ⟨fs', hdirs, hdir⟩ := Option.bind_eq_some_iff.mp hfs
  obtain ⟨hnone, htime⟩ := Prod.mk.inj heq
  have hturns : [heldTurn .dir 512 [['d']]].foldlM (Turn.recover heldTree 0) (fs', fun _ => 0)
      = some (fs, fun _ => 0) := by
    show ((DirInode.recoverAt heldTree _ fs').map _).bind _ = _
    rw [hdir]
    rfl
  -- in the file
  have hsplit : heldTurns = [heldTurn .dir 512 [['d']]] ++
      heldTurn .file 0 [['d'], ['f']] :: [heldTurn .file 1024 [['d'], ['g']]] := rfl
  have hskip : FileInode.skips heldTree .quiet 0 (fs.file [['d'], ['f']]) = .ret false := by
    rw [Option.isNone_iff_eq_none.mp hnone]
    rfl
  have hdinode : heldTree.getDinode 0 = .ret (heldTree.readDinode 0) :=
    Env.getDinode_of_slot ⟨by decide, by decide⟩
  have hsave : FileInode.saveFile heldTree 0 0 (.ret ()) 0 (fun _ => 0) = some _ :=
    FileInode.saveFile_ret hdinode (by decide) collectXads_heldTree whole_heldXads
  have hkilled := Killed.inSave 0 2 hsplit hdirs hturns rfl hskip
    (Or.inr (Option.isSome_of_eq_some htime)) hsave rfl
  have hE : heldTree = heldTree ∧ 0 = 0 := ⟨rfl, rfl⟩
  have hkills := Kills.start.killed (E := fun e n => e = heldTree ∧ n = 0)
    (R := fun us => Fits us heldTurns) hE (fits_of_same layout_heldTurns rfl) hkilled
  refine ⟨_, hkills, ?_⟩
  have hpath : (heldTurn .file 0 [['d'], ['f']]).path = [['d'], ['f']] := rfl
  rw [file_tear, hpath, Function.update_self]
  decide +kernel

/-- The next run makes the other file what it is. -/
theorem recoverTree_after_kills_heldTurns : ∃ fs₁ fs₂,
    Kills (fun e n => e = heldTree ∧ n = 0) (fun us => Fits us heldTurns) nothing
        [[['d'], ['f']]] fs₁ ∧
      (fs₁.file [['d'], ['f']]).map (heldByte 0) = some (2, 7) ∧
      recoverTree heldTree 0 200 heldTurns fs₁ (fun _ => 9) = some fs₂ ∧
      (fs₂.file [['d'], ['g']]).map (heldByte 0) = some (512, 9) := by
  have hwhole : (recoverTree heldTree 0 100 heldTurns nothing (fun _ => 0)).map
      (fun fs => (fs.file [['d'], ['g']]).map (heldByte 0)) = some (some (512, 9)) := by
    decide +kernel
  obtain ⟨fs₀, hrun, hbyte⟩ := Option.map_eq_some_iff.mp hwhole
  obtain ⟨fs₁, hkills, hleft⟩ := kills_heldTurns
  obtain ⟨fs₂, hagain, _, hfiles⟩ := recoverTree_after_kills layout_heldTurns leakless_heldTurns
    hrun hkills rfl 200 (fun _ => 9)
  refine ⟨fs₁, fs₂, hkills, hleft, hagain, ?_⟩
  rcases hfiles (heldTurn .file 1024 [['d'], ['g']]) (by simp [heldTurns]) rfl with
    hsame | ⟨htorn, _⟩
  · have hpath : (heldTurn .file 1024 [['d'], ['g']]).path = [['d'], ['g']] := rfl
    rw [hpath] at hsame
    rw [map_heldByte, hsame, ← map_heldByte, hbyte]
  · exact absurd htorn (by decide)

end Recoverer

end Jfsrec
