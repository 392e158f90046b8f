import Jfsrec.Lib.LineEdit
import Jfsrec.Restarts

/-!
# Removing inodes between two runs

The script `jfsrec_rm_logged_inode` takes byte offsets out of all files of the progress directory,
so that the next run goes on without the inodes that are there.  A user may call it between any two
runs, and as often as it takes: `scan_of_session` says that the next run has what the scan has found
but for the inodes that were removed.
-/

namespace Jfsrec

open Lib InodeVector

/-! ### jfsrec_rm_logged_inode -/

/-- The body of the loop over the inodes: `grep` in `inoscan.txt`, and `sed` on all files. -/
def removeInode (files : Files) (inode : ℕ) : Files :=
  match files .inoscan with
  | none => files
  | some text =>
      if hasLine (Nat.toDigits 10 inode) text then
        fun fn => (files fn).map (deleteLine (Nat.toDigits 10 inode))
      else files

/-- The script.  It exits where there is no `inoscan.txt`. -/
def rmLoggedInode (inodes : List ℕ) (files : Files) : Files :=
  if (files .inoscan).isNone then files else inodes.foldl removeInode files

variable {files files' : Files} {fn : ProgressFile} {os ns inodes : List ℕ}

def without (inodes os ns : List ℕ) : List ℕ := ns.filter (fun n => decide ¬(n ∈ inodes ∧ n ∈ os))

theorem mem_without {n : ℕ} : n ∈ without inodes os ns ↔ n ∈ ns ∧ ¬(n ∈ inodes ∧ n ∈ os) := by
  rw [without, List.mem_filter, decide_eq_true_eq]

theorem without_of_forall (h : ∀ n ∈ ns, ¬(n ∈ inodes ∧ n ∈ os)) : without inodes os ns = ns :=
  List.filter_eq_self.mpr (fun n hn => decide_eq_true (h n hn))

theorem without_cons (i : ℕ) (inodes os ns : List ℕ) : without (i :: inodes) os ns
    = without inodes (without [i] os os) (without [i] os ns) := by
  have hback : without inodes (without [i] os os) (without [i] os ns) = ns.filter (fun n =>
      decide ¬(n ∈ inodes ∧ n ∈ without [i] os os) && decide ¬(n ∈ [i] ∧ n ∈ os)) :=
    List.filter_filter
  rw [hback, without]
  refine List.filter_congr (fun n _ => ?_)
  rw [Bool.eq_iff_iff, Bool.and_eq_true, decide_eq_true_eq, decide_eq_true_eq, decide_eq_true_eq,
    mem_without, List.mem_cons, List.mem_singleton]
  tauto

theorem removeInode_eq (hlog : files .inoscan = some (Istream.lines os)) (i : ℕ)
    (hfile : files fn = some (Istream.lines ns)) :
    removeInode files i fn = some (Istream.lines (without [i] os ns)) := by
  rw [removeInode, hlog]
  dsimp only
  by_cases hi : i ∈ os
  · rw [if_pos (Istream.hasLine_lines.mpr hi), hfile, Option.map_some, Istream.deleteLine_lines,
      without]
    congr 2
    refine List.filter_congr (fun n _ => ?_)
    rw [Bool.eq_iff_iff, bne_iff_ne, decide_eq_true_eq, List.mem_singleton]
    exact not_congr ⟨fun h => ⟨h, h ▸ hi⟩, And.left⟩
  · rw [if_neg (mt Istream.hasLine_lines.mp hi), hfile, without_of_forall]
    rintro n - ⟨hn, hlogged⟩
    exact hi (List.mem_singleton.mp hn ▸ hlogged)

/-- **What the script leaves of a file.** -/
theorem rmLoggedInode_some (hlog : files .inoscan = some (Istream.lines os))
    (hfile : files fn = some (Istream.lines ns)) :
    rmLoggedInode inodes files fn = some (Istream.lines (without inodes os ns)) := by
  rw [rmLoggedInode, hlog, if_neg (by simp)]
  induction inodes generalizing files os ns with
  | nil =>
    rw [List.foldl_nil, hfile, without_of_forall]
    exact fun n _ h => List.not_mem_nil h.1
  | cons i inodes ih =>
    rw [List.foldl_cons, without_cons]
    exact ih (removeInode_eq hlog i hlog) (removeInode_eq hlog i hfile)

theorem rmLoggedInode_isSome (inodes : List ℕ) (files : Files) (fn : ProgressFile) :
    (rmLoggedInode inodes files fn).isSome = (files fn).isSome := by
  have hstep : ∀ (fs : Files) (i : ℕ), (removeInode fs i fn).isSome = (fs fn).isSome := by
    intro fs i
    rw [removeInode]
    cases fs .inoscan with
    | none => rfl
    | some text =>
      dsimp only
      split
      · exact Option.isSome_map
      · rfl
  rw [rmLoggedInode]
  split
  · rfl
  · exact List.foldlRecOn (motive := fun fs => (fs fn).isSome = (files fn).isSome) inodes
      removeInode rfl (fun fs h i _ => (hstep fs i).trans h)

theorem latest_rmLoggedInode (inodes : List ℕ) (files : Files) :
    Scanner.latest (rmLoggedInode inodes files) = Scanner.latest files := by
  rw [Scanner.latest, Scanner.latest]
  simp only [rmLoggedInode_isSome]

/-! ### What a user does -/

/-- The file of the last stage is not empty.  From an empty one a load reads a variable that nobody
has set. -/
def Loadable (files : Files) : Prop :=
  ∀ stage, Scanner.latest files = some stage → files stage.file ≠ some []

/-- From an empty progress directory, runs that are killed between two stages and calls of the
script, in any order, that have removed the offsets `removed`. -/
inductive Session (dev : Device) : List ℕ → Files → Prop
  | start : Session dev [] (fun _ => none)
  | killed {removed : List ℕ} {files files' : Files} (h : Session dev removed files)
      (hkill : Scanner.Killed dev files files') (hloads : Loadable files') :
      Session dev removed files'
  | removed {removed inodes : List ℕ} {files : Files} (h : Session dev removed files)
      (hlog : (files .inoscan).isSome) (hloads : Loadable (rmLoggedInode inodes files)) :
      Session dev (removed ++ inodes) (rmLoggedInode inodes files)

/-- The progress directory behind a stage: its file lists the inodes `m`, and with that of the
invalidated ones all of `l`, which are in the log. -/
structure Listed (l : List View) (stage : Stage) (m : List View) (files : Files) : Prop where
  latest : Scanner.latest files = some stage
  file : files stage.file = some (Istream.lines (m.map View.byteOffset))
  invalidated : ∃ inv : List View, (files .invalidated = none ∧ inv = [] ∨
      files .invalidated = some (Istream.lines (inv.map View.byteOffset))) ∧
    ∀ x, x ∈ l ↔ x ∈ m ∨ x ∈ inv
  log : ∃ os, files .inoscan = some (Istream.lines os) ∧ ∀ x ∈ l, x.byteOffset ∈ os

def Logged (l : List View) (files : Files) : Prop := ∃ stage m, Listed l stage m files

variable {env : Env} {stage : Stage} {l m : List View} {v : InodeVector} {s : Scanner}

/-! ### A call of the script -/

def staying (inodes : List ℕ) (l : List View) : List View :=
  l.filter (fun x => decide (x.byteOffset ∉ inodes))

theorem mem_staying {x : View} : x ∈ staying inodes l ↔ x ∈ l ∧ x.byteOffset ∉ inodes := by
  rw [staying, List.mem_filter, decide_eq_true_eq]

theorem without_map (inodes : List ℕ) (hos : ∀ x ∈ l, x.byteOffset ∈ os) :
    without inodes os (l.map View.byteOffset) = (staying inodes l).map View.byteOffset := by
  rw [without, List.filter_map, staying]
  congr 1
  refine List.filter_congr (fun x hx => ?_)
  rw [Function.comp, Bool.eq_iff_iff, decide_eq_true_eq, decide_eq_true_eq]
  exact not_congr (and_iff_left (hos x hx))

/-- **After a call of the script** the files list what stays. -/
theorem Listed.removed (h : Listed l stage m files) (inodes : List ℕ) :
    Listed (staying inodes l) stage (staying inodes m) (rmLoggedInode inodes files) := by
  obtain ⟨hlatest, hfile, ⟨inv, hinv, hmem⟩, os, hlog, hos⟩ := h
  have hm := without_map inodes (fun x hx => hos x ((hmem x).mpr (Or.inl hx)))
  have hi := without_map inodes (fun x hx => hos x ((hmem x).mpr (Or.inr hx)))
  refine ⟨?_, ?_, ⟨staying inodes inv, ?_, fun x => ?_⟩, without inodes os os,
    rmLoggedInode_some hlog hlog, fun x hx => ?_⟩
  · rw [latest_rmLoggedInode, hlatest]
  · rw [rmLoggedInode_some hlog hfile, hm]
  · rcases hinv with ⟨hnone, rfl⟩ | hsome
    · refine Or.inl ⟨Option.not_isSome_iff_eq_none.mp ?_, rfl⟩
      rw [rmLoggedInode_isSome, hnone]
      exact Bool.false_ne_true
    · rw [rmLoggedInode_some hlog hsome, hi]
      exact Or.inr rfl
  · simp only [mem_staying, hmem]
    tauto
  · obtain ⟨hxl, hxi⟩ := mem_staying.mp hx
    exact mem_without.mpr ⟨hos x hxl, fun hin => hxi hin.1⟩

/-! ### A run -/

/-- **A run that finds the files has the inodes that they list**, the last valid one twice. -/
theorem Listed.load (h : Listed l stage m files) (hl : ∀ x ∈ l, x.OnDevice env.device)
    (hloads : Loadable files) (ok : Bool) :
    ∃ v x, loadFromPositions env stage.file files (start ok) = (.ok (), v) ∧
      Intact env l v files ∧ m.getLast? = some x ∧ v.views env = m ++ [x] := by
  obtain ⟨hlatest, hfile, ⟨inv, hinv, hmem⟩, -⟩ := h
  have hne : m ≠ [] := by
    rintro rfl
    exact hloads stage hlatest hfile
  obtain ⟨x, hx⟩ := Option.isSome_iff_exists.mp (List.getLast?_isSome.mpr hne)
  have hlast : (m.map View.byteOffset).getLast? = some x.byteOffset := by
    rw [List.getLast?_map, hx]
    rfl
  have hlt : ∀ ys : List View, (∀ y ∈ ys, y ∈ l) → ∀ k ∈ ys.map View.byteOffset, k < 2 ^ 64 := by
    intro ys hys k hk
    obtain ⟨y, hy, rfl⟩ := List.mem_map.mp hk
    have hslot := (hl y (hys y hy)).slot.2
    have hsize := env.device.getSizeBytes_lt
    omega
  have hml : ∀ y ∈ m, y ∈ l := fun y hy => (hmem y).mpr (Or.inl hy)
  have hil : ∀ y ∈ inv, y ∈ l := fun y hy => (hmem y).mpr (Or.inr hy)
  obtain ⟨hnone, hsome⟩ := positionsRead_of_lines env hfile hlast (hlt m hml) (hlt inv hil)
  -- the file of the invalidated inodes gives one more, unless there is no such file
  obtain ⟨js, hread, hjs, hfirst⟩ : ∃ js : List View, positionsRead env stage.file files
        = some ((m ++ [x]).map View.byteOffset, js.map View.byteOffset) ∧
      (∀ y, y ∈ m ∨ y ∈ js ↔ y ∈ l) ∧ (js = [] → files .invalidated = none) := by
    rw [List.map_append, List.map_singleton]
    rcases hinv with ⟨hno, rfl⟩ | hyes
    · exact ⟨[], hnone hno, fun y => (hmem y).symm, fun _ => hno⟩
    · have hagain : inv.getLastD x ∈ m ∨ inv.getLastD x ∈ inv := by
        rw [List.getLastD_eq_getLast?]
        cases hinvlast : inv.getLast? with
        | none => exact Or.inl (List.mem_of_getLast? hx)
        | some y => exact Or.inr (List.mem_of_getLast? hinvlast)
      refine ⟨inv ++ [inv.getLastD x], ?_, fun y => ?_, fun hnil => ?_⟩
      · rw [hsome hyes, List.map_append, List.map_singleton, List.getLastD_eq_getLast?,
          List.getLastD_eq_getLast?, List.getLast?_map]
        cases inv.getLast? <;> rfl
      · rw [hmem, List.mem_append, List.mem_singleton]
        constructor
        · rintro (hy | hy | rfl)
          · exact Or.inl hy
          · exact Or.inr hy
          · exact hagain
        · exact Or.imp_right Or.inl
      · exact absurd (List.append_eq_nil_iff.mp hnil).2 (List.cons_ne_nil _ _)
  have hon : ∀ y ∈ m ++ [x] ++ js, y.OnDevice env.device := by
    intro y hy
    rw [List.mem_append, List.mem_append, List.mem_singleton] at hy
    rcases hy with (hy | rfl) | hy
    · exact hl y (hml y hy)
    · exact hl y (hml y (List.mem_of_getLast? hx))
    · exact hl y ((hjs y).mp (Or.inr hy))
  obtain ⟨hready, hviews⟩ := allViews_loaded hon ok
  obtain ⟨hviews, hinviews⟩ := Prod.mk.inj hviews
  refine ⟨_, x, loadFromPositions_of_read hread (fun n hn => ?_),
    ⟨hready, fun y => ?_, fun hnil => hfirst ?_⟩, hx, hviews⟩
  · rw [← List.map_append] at hn
    obtain ⟨y, hy, rfl⟩ := List.mem_map.mp hn
    exact ⟨_, readFromDisk_of_slot (hon y hy).slot⟩
  · rw [hviews, hinviews, ← hjs, List.mem_append, List.mem_singleton]
    constructor
    · exact Or.imp_left Or.inl
    · rintro ((hy | rfl) | hy)
      · exact Or.inl hy
      · exact Or.inl (List.mem_of_getLast? hx)
      · exact Or.inr hy
  · rw [← hinviews, invalidatedViews, hnil]
    rfl

/-- A run behind a stage, with the inodes `l`. -/
structure Past (env : Env) (l : List View) (stage : Stage) (s : Scanner) : Prop
    extends Intact env l s.inovec s.files where
  later : ∀ st : Stage, stage.rank < st.rank → s.files st.file = none
  log : ∃ os, s.files .inoscan = some (Istream.lines os) ∧ ∀ x ∈ l, x.byteOffset ∈ os

theorem savePositions_inoscan (stage : Stage) (v : InodeVector) (files : Files) :
    savePositions stage.file v files .inoscan = files .inoscan := by
  have hne : ProgressFile.inoscan ≠ stage.file := by cases stage <;> decide
  have hne' : ProgressFile.inoscan ≠ .invalidated := by decide
  rw [savePositions]
  split
  · rw [Function.update_of_ne hne', Function.update_of_ne hne]
  · rw [Function.update_of_ne hne]

/-- **A run that saves a stage** leaves files that list its inodes. -/
theorem Past.save (h : Past env l stage s) (hintact : Intact env l v s.files) (st : Stage)
    (hst : stage.rank ≤ st.rank) :
    Logged l (savePositions st.file v s.files) ∧
      Past env l st ⟨v, savePositions st.file v s.files⟩ := by
  obtain ⟨hnone, hlatest⟩ :=
    latest_savePositions env v (fun st' hst' => h.later st' (Nat.lt_of_le_of_lt hst hst'))
  obtain ⟨hsaved, hinv⟩ := hintact.savePositions st
  have hfile := savePositions_stage env st v s.files st
  rw [if_pos rfl] at hfile
  have hlog := h.log
  rw [← savePositions_inoscan st v s.files] at hlog
  refine ⟨⟨st, _, hlatest, hfile, ⟨_, ?_, hintact.mem_iff⟩, hlog⟩, hsaved, hnone, hlog⟩
  by_cases hnil : v.invalidatedViews env = []
  · exact Or.inl ⟨hinv.trans (if_pos hnil), hnil⟩
  · exact Or.inr (hinv.trans (if_neg hnil))

theorem Past.extentscan (h : Past env l .postScan s) :
    Logged l (s.extentscan env).files ∧ Past env l .postExtentscan (s.extentscan env) := by
  have hs₁ := filterInostamps_selects h.ready
  have hs₂ := detectInoExtents_selects (hs₁.ready h.ready)
  exact h.save ((h.toIntact.selects hs₁).selects hs₂) .postExtentscan (by decide)

theorem Past.unallocated (h : Past env l .postExtentscan s) :
    Logged l (s.unallocated env).files ∧ Past env l .postRemoveUnallocated (s.unallocated env) :=
  h.save (h.toIntact.selects (removeUnallocated_selects h.ready)) .postRemoveUnallocated (by decide)

theorem Past.dupes (h : Past env l .postRemoveUnallocated s) :
    Logged l (s.dupes env).files ∧ Past env l .postRemoveDupes (s.dupes env) :=
  h.save (h.toIntact.selects (removeDupes_selects h.ready)) .postRemoveDupes (by decide)

theorem Past.passed (h : Past env l stage s) :
    ∀ s' ∈ Scanner.passedFrom env stage s, Logged l s'.files := by
  have hdupes : ∀ {t}, Past env l .postRemoveUnallocated t →
      ∀ s' ∈ Scanner.passedFrom env .postRemoveUnallocated t, Logged l s'.files :=
    fun ht => List.forall_mem_singleton.mpr ht.dupes.1
  have hunallocated : ∀ {t}, Past env l .postExtentscan t →
      ∀ s' ∈ Scanner.passedFrom env .postExtentscan t, Logged l s'.files :=
    fun ht => List.forall_mem_cons.mpr ⟨ht.unallocated.1, hdupes ht.unallocated.2⟩
  cases stage with
  | postScan =>
    exact List.forall_mem_cons.mpr ⟨h.extentscan.1, hunallocated h.extentscan.2⟩
  | postExtentscan => exact hunallocated h
  | postRemoveUnallocated => exact hdupes h
  | postRemoveDupes => exact List.forall_mem_nil _

theorem mem_scanFrom (h : Intact env l s.inovec s.files) (stage : Stage) {x : View} :
    x ∈ l ↔ x ∈ (s.scanFrom env stage).inovec.views env ∨
      x ∈ (s.scanFrom env stage).inovec.invalidatedViews env := by
  have hperm : ∀ (sels : List Selection) (a : List View × List View),
      ((sels.foldl select a).1 ++ (sels.foldl select a).2).Perm (a.1 ++ a.2) := by
    intro sels
    induction sels with
    | nil => exact fun _ => .refl _
    | cons sel sels ih =>
      intro a
      refine (ih (select a sel)).trans ((List.perm_append_comm_assoc _ _ _).trans ?_)
      exact (List.Perm.append_left _ (keepAt_perm _ _)).trans List.perm_append_comm
  have hall := Scanner.scanFrom_allViews h.ready stage
  have hmem := (hperm stage.remaining (s.inovec.allViews env)).mem_iff (a := x)
  rw [← hall, List.mem_append, List.mem_append] at hmem
  exact (h.mem_iff x).trans hmem.symm

theorem past_doScan (env : Env) (ok : Bool)
    (hbig : chunkBytes env.device ≤ env.device.getSizeBytes) :
    ∃ s, Scanner.doScan env ⟨start ok, fun _ => none⟩ = (.ok (), s) ∧
      Logged env.device.found s.scanned.files ∧
      Past env env.device.found .postScan s.scanned := by
  obtain ⟨s, hscan, hready, hviews, hinv, hlog, hfiles⟩ := doScan_found env ok hbig
  have hintact : Intact env env.device.found s.inovec s.files := by
    refine ⟨hready, fun x => ?_, fun _ => hfiles _ (by decide)⟩
    rw [hviews, invalidatedViews, hinv]
    simp
  have hpast : Past env env.device.found .postScan s :=
    ⟨hintact, fun st _ => hfiles _ (by cases st <;> decide), _, hlog,
      fun x hx => List.mem_map_of_mem hx⟩
  exact ⟨s, hscan, hpast.save hintact .postScan (Nat.le_refl _)⟩

/-! ### Any number of runs and calls -/

variable {dev : Device} {removed : List ℕ}

theorem staying_append (removed inodes : List ℕ) (l : List View) :
    staying (removed ++ inodes) l = staying inodes (staying removed l) := by
  rw [staying, staying, staying, List.filter_filter]
  refine List.filter_congr (fun x _ => ?_)
  rw [Bool.eq_iff_iff, Bool.and_eq_true, decide_eq_true_eq, decide_eq_true_eq, decide_eq_true_eq,
    List.mem_append]
  tauto

theorem onDevice_staying : ∀ x ∈ staying removed dev.found, x.OnDevice dev :=
  fun x hx => onDevice_found x (mem_staying.mp hx).1

/-- **What the files list**, whatever the user has done. -/
theorem logged_of_session (hbig : chunkBytes dev ≤ dev.getSizeBytes)
    (h : Session dev removed files) :
    removed = [] ∧ files = (fun _ => none) ∨
      Logged (staying removed dev.found) files ∧ Loadable files := by
  induction h with
  | start => exact Or.inl ⟨rfl, rfl⟩
  | @killed removed files files' h hkill hloads ih =>
    refine Or.inr ⟨?_, hloads⟩
    obtain ⟨env, ok, rfl, s, hs, rfl⟩ := hkill
    rw [Scanner.passed] at hs
    rcases ih with ⟨rfl, rfl⟩ | ⟨hlogged, hload₀⟩
    · obtain ⟨s₀, hscan, hlogged, hpast⟩ := past_doScan env ok hbig
      have hnone : Scanner.latest (fun _ => none) = none := rfl
      simp only [hnone, hscan] at hs
      have hall : staying [] env.device.found = env.device.found :=
        List.filter_eq_self.mpr (fun x _ => decide_eq_true List.not_mem_nil)
      rw [hall]
      rcases List.mem_cons.mp hs with rfl | hs
      · exact hlogged
      · exact hpast.passed s hs
    · obtain ⟨stage, m, hlisted⟩ := hlogged
      obtain ⟨v, _, hload, hintact, -⟩ := hlisted.load onDevice_staying hload₀ ok
      simp only [hlisted.latest, hload] at hs
      have hpast : Past env (staying removed env.device.found) stage ⟨v, files⟩ :=
        ⟨hintact, (Scanner.latest_eq_some.mp hlisted.latest).2, hlisted.log⟩
      exact hpast.passed s hs
  | @removed removed inodes files h hlog hloads ih =>
    rcases ih with ⟨-, rfl⟩ | ⟨hlogged, -⟩
    · cases hlog
    · obtain ⟨stage, m, hlisted⟩ := hlogged
      rw [staying_append]
      exact Or.inr ⟨⟨stage, _, hlisted.removed inodes⟩, hloads⟩

/-- **A run has what the scan has found but for what the user has removed**, whatever runs were
killed before, between whichever stages, and whenever inodes were removed. -/
theorem scan_of_session (hbig : chunkBytes dev ≤ dev.getSizeBytes)
    (h : Session dev removed files) (henv : env.device = dev) (ok : Bool) :
    let run := Scanner.scan env ⟨start ok, files⟩
    run.1 = .ok () ∧ ∀ x, x ∈ run.2.inovec.views env ∨ x ∈ run.2.inovec.invalidatedViews env ↔
      x ∈ dev.found ∧ x.byteOffset ∉ removed := by
  intro run
  subst henv
  rcases logged_of_session hbig h with ⟨rfl, rfl⟩ | ⟨hlogged, hloads⟩
  · obtain ⟨s, hscan, -, hpast⟩ := past_doScan env ok hbig
    have hrun : run = (.ok (), Scanner.scanFrom env .postScan s.scanned) :=
      Scanner.scan_of_doScan (s := ⟨start ok, fun _ => none⟩) rfl hscan
    rw [hrun]
    refine ⟨rfl, fun x => ?_⟩
    rw [← mem_scanFrom hpast.toIntact]
    exact (and_iff_left List.not_mem_nil).symm
  · obtain ⟨stage, m, hlisted⟩ := hlogged
    obtain ⟨v, _, hload, hintact, -⟩ := hlisted.load onDevice_staying hloads ok
    have hrun : run = (.ok (), Scanner.scanFrom env stage ⟨v, files⟩) :=
      Scanner.scan_of_load hlisted.latest hload
    rw [hrun]
    refine ⟨rfl, fun x => ?_⟩
    have hmem := mem_scanFrom (s := ⟨v, files⟩) hintact stage (x := x)
    rw [← hmem, mem_staying]

/-- **Behind the last stage the next run has no other valid inodes** than it would have had without
the call, and all of these but for those that were removed. -/
theorem valid_after_removal (hbig : chunkBytes dev ≤ dev.getSizeBytes)
    (h : Session dev removed files) (hlatest : Scanner.latest files = some .postRemoveDupes)
    (hloads : Loadable (rmLoggedInode inodes files)) (henv : env.device = dev) (ok : Bool)
    (x : View) :
    x ∈ (Scanner.scan env ⟨start ok, rmLoggedInode inodes files⟩).2.inovec.views env ↔
      x ∈ (Scanner.scan env ⟨start ok, files⟩).2.inovec.views env ∧ x.byteOffset ∉ inodes := by
  subst henv
  -- a run behind the last stage has what the file lists
  have hvalid : ∀ {l m : List View} {fs : Files}, Listed l .postRemoveDupes m fs →
      (∀ y ∈ l, y.OnDevice env.device) → Loadable fs →
      (x ∈ (Scanner.scan env ⟨start ok, fs⟩).2.inovec.views env ↔ x ∈ m) := by
    intro l m fs hlisted hon hfs
    obtain ⟨v, y, hload, -, hy, hviews⟩ := hlisted.load hon hfs ok
    rw [Scanner.scan_of_load hlisted.latest hload]
    show x ∈ v.views env ↔ _
    rw [hviews, List.mem_append, List.mem_singleton]
    exact or_iff_left_of_imp (fun hxy => hxy ▸ List.mem_of_getLast? hy)
  rcases logged_of_session hbig h with ⟨-, rfl⟩ | ⟨⟨stage, m, hlisted⟩, hfiles⟩
  · cases hlatest
  · obtain rfl := Option.some.inj (hlisted.latest.symm.trans hlatest)
    have hon : ∀ y ∈ staying removed env.device.found, y.OnDevice env.device := onDevice_staying
    rw [hvalid (hlisted.removed inodes) (fun y hy => hon y (mem_staying.mp hy).1) hloads,
      hvalid hlisted hon hfiles, mem_staying]

/-! ### An example -/

theorem session_extentDisk : ∃ files, Session extentDisk.device [] files ∧
    Scanner.latest files = some .postRemoveDupes ∧ (files .inoscan).isSome ∧
    Loadable (rmLoggedInode [15872] files) := by
  obtain ⟨files, hkill, hstage⟩ := exists_killed (by decide) stampsSettled_extentDisk
  obtain ⟨m₀, inv, hm₀, hfile, -, -⟩ := hstage.lists
  rw [hm₀.exact (by decide)] at hfile
  have hloads : Loadable files := by
    intro st hst hnil
    obtain rfl := Option.some.inj (hstage.latest.symm.trans hst)
    have hgone := Istream.lines_eq_nil.mp (Option.some.inj (hfile.symm.trans hnil))
    exact kept_extentDisk (List.map_eq_nil_iff.mp hgone)
  have hsession := Session.killed .start hkill hloads
  have hstays : staying [15872] (Stage.postRemoveDupes.left extentDisk.device.found) ≠ [] := by
    rw [found_extentDisk]
    decide +kernel
  rcases logged_of_session (by decide) hsession with ⟨-, rfl⟩ | ⟨⟨stage, m, hlisted⟩, -⟩
  · cases hstage.latest
  · obtain rfl := Option.some.inj (hlisted.latest.symm.trans hstage.latest)
    obtain ⟨os, hlog, -⟩ := hlisted.log
    refine ⟨files, hsession, hstage.latest, by rw [hlog]; rfl, fun st hst hnil => ?_⟩
    rw [latest_rmLoggedInode] at hst
    obtain rfl := Option.some.inj (hstage.latest.symm.trans hst)
    have hoffs := Istream.lines_inj.mp (Option.some.inj (hfile.symm.trans hlisted.file))
    have hgone := Istream.lines_eq_nil.mp
      (Option.some.inj ((hlisted.removed [15872]).file.symm.trans hnil))
    have hnone : staying [15872] m = [] := List.map_eq_nil_iff.mp hgone
    obtain ⟨x, hx⟩ := List.exists_mem_of_ne_nil _ hstays
    obtain ⟨hxl, hxi⟩ := mem_staying.mp hx
    have hmem := List.mem_map_of_mem (f := View.byteOffset) hxl
    rw [hoffs] at hmem
    obtain ⟨y, hy, hyx⟩ := List.mem_map.mp hmem
    have hystays : y ∈ staying [15872] m := mem_staying.mpr ⟨hy, hyx ▸ hxi⟩
    rw [hnone] at hystays
    cases hystays

theorem scan_of_session_extentDisk : ∃ files, Session extentDisk.device [15872] files ∧
    (Scanner.scan extentDisk ⟨start true, files⟩).1 = .ok () ∧
    ∀ x ∈ (Scanner.scan extentDisk ⟨start true, files⟩).2.inovec.views extentDisk,
      x.byteOffset ≠ 15872 := by
  obtain ⟨files, hsession, -, hlog, hloads⟩ := session_extentDisk
  have hremoved := hsession.removed hlog hloads
  obtain ⟨hok, hmem⟩ := scan_of_session (by decide) hremoved (rfl : extentDisk.device = _) true
  exact ⟨_, hremoved, hok, fun x hx hoff =>
    ((hmem x).mp (Or.inl hx)).2 (by rw [hoff]; exact List.mem_cons_self)⟩

theorem valid_after_removal_extentDisk : ∃ files, Session extentDisk.device [] files ∧
    ∀ x, x ∈ (Scanner.scan extentDisk
        ⟨start true, rmLoggedInode [15872] files⟩).2.inovec.views extentDisk ↔
      x ∈ (Scanner.scan extentDisk ⟨start true, files⟩).2.inovec.views extentDisk ∧
        x.byteOffset ≠ 15872 := by
  obtain ⟨files, hsession, hlatest, -, hloads⟩ := session_extentDisk
  refine ⟨files, hsession, fun x => ?_⟩
  have h := valid_after_removal (by decide) hsession hlatest hloads (rfl : extentDisk.device = _)
    true x
  exact h.trans (and_congr_right' (not_congr List.mem_singleton))

end Jfsrec
