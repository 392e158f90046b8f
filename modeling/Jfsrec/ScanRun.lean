import Jfsrec.Stages

/-!
# The steps of a scan

`InodeScanner::scan`, on whatever progress files and to whatever end, works on
the vector by scan steps only: `scanSteps_scan`.  So what scan steps preserve
holds of all that a scan leaves, and a scan that returns leaves a vector whose
index has to be built before it is used.
-/

namespace Jfsrec

open Lib InodeVector

variable {env : Env}

/-! ### Scanning and restoring -/

namespace InodeVector

variable {v w : InodeVector}

theorem built_of_readFromDisk {bo : ℕ} {o : Option Inode} (h : readFromDisk env bo = .ok o) :
    built env bo = o := by
  rw [built, h]

theorem scanSteps_readPositions {push : InodeVector → Ptr → InodeVector}
    (hstep : ∀ (v : InodeVector) (o : Option Inode), (∀ ino ∈ o, ino.New) →
      ScanStep env v (v.addBuilt push o)) (f : Istream) (bo : ℕ) (v : InodeVector) :
    ScanSteps env v (readPositions env push f bo v).2 := by
  refine Istream.whileNotEof_inv (P := ScanSteps env v) (fun n w hw => ?_) _ f bo .refl
  unfold loadInode
  cases hr : readFromDisk env n with
  | error e => exact hw
  | ok o =>
    refine hw.tail (hstep w o (fun ino hino => ?_))
    rw [← built_of_readFromDisk hr] at hino
    exact built_new hino

theorem scanSteps_loadFromPositions (env : Env) (fn : ProgressFile) (files : Files)
    (v : InodeVector) :
    ScanSteps env v (loadFromPositions env fn files v).2 := by
  have h1 : ScanSteps env v (readPositions env pushInode
      ((⟨[], false, false⟩ : Istream).openFile (files fn)) env.bo v).2 :=
    scanSteps_readPositions (fun _ o ho => .pushInode o ho) _ _ v
  rcases hr : readPositions env pushInode ((⟨[], false, false⟩ : Istream).openFile (files fn))
    env.bo v with ⟨e | ⟨f, bo⟩, w⟩
  · rw [hr] at h1
    simp only [loadFromPositions, hr]
    exact h1
  · rw [hr] at h1
    have h2 : ScanSteps env w (readPositions env pushInvalidated
        (f.openFile (files .invalidated)) bo w).2 :=
      scanSteps_readPositions (fun _ o ho => .pushInvalidated o ho) _ _ w
    rcases hr' : readPositions env pushInvalidated (f.openFile (files .invalidated)) bo w
      with ⟨e | r, u⟩
    · rw [hr'] at h2
      simp only [loadFromPositions, hr, hr']
      exact h1.trans h2
    · rw [hr'] at h2
      simp only [loadFromPositions, hr, hr']
      exact (h1.trans h2).tail (.index _ false)

end InodeVector

namespace Scanner

variable {s s' : Scanner} {v : InodeVector}

theorem scanSteps_foundInode {ino : Inode} (hino : ino.New)
    (h : ScanSteps env v s.inovec) : ScanSteps env v (s.foundInode ino).inovec :=
  h.tail (.addInode (some ino) (fun _ hm => by rwa [← Option.some.inj hm]))

theorem scanSteps_scanBlocks (i n : ℕ) (chunk : Buffer) (h : ScanSteps env v s.inovec) :
    ScanSteps env v (s.scanBlocks i n chunk).inovec := by
  unfold scanBlocks
  induction List.range n generalizing s with
  | nil => exact h
  | cons c cs ih =>
    rw [List.foldl_cons]
    apply ih
    cases hc : createIfSane (.ofBuffer chunk (c * inodeSize)) (i + c * inodeSize) with
    | none => exact h
    | some ino => exact scanSteps_foundInode (new_of_constructByMode (createIfSane_eq_some hc)) h

theorem scanSteps_scanChunks {dev : Device} {limit : ℕ} (fuel : ℕ) : ∀ (i : ℕ) (chunk : Buffer)
    {s : Scanner}, ScanSteps env v s.inovec →
      ScanSteps env v (s.scanChunks dev limit fuel i chunk).2.inovec := by
  induction fuel with
  | zero => exact fun _ _ _ h => h
  | succ fuel ih =>
    intro i chunk s h
    rw [scanChunks]
    by_cases hi : i < limit
    · rw [if_pos hi]
      cases dev.readBytes (toInt64 i) (chunkBytes dev % 2 ^ 32) chunk with
      | error e => exact h
      | ok chunk' => exact ih _ _ (scanSteps_scanBlocks _ _ _ h)
    · rw [if_neg hi]
      exact h

theorem scanSteps_restore (env : Env) (s : Scanner) :
    ScanSteps env s.inovec (s.restore env).2.inovec := by
  unfold restore
  cases s.files .inoscan with
  | none => exact .refl
  | some text =>
    have h : ScanSteps env s.inovec
        (readPositions env addInode ⟨text, false, false⟩ env.bo s.inovec).2 :=
      scanSteps_readPositions (fun _ o ho => .addInode o ho) _ _ s.inovec
    rcases hr : readPositions env addInode ⟨text, false, false⟩ env.bo s.inovec
      with ⟨e | ⟨f, bo⟩, w⟩
    · rw [hr] at h
      simp only [hr]
      exact h
    · rw [hr] at h
      simp only [hr]
      exact h

theorem scanSteps_doScan (env : Env) (s : Scanner) :
    ScanSteps env s.inovec (s.doScan env).2.inovec := by
  have h1 := scanSteps_restore env s
  rcases hr : s.restore env with ⟨e | start, s1⟩
  · rw [hr] at h1
    simp only [doScan, hr]
    exact h1
  · rw [hr] at h1
    have h2 : ScanSteps env s.inovec (s1.scanChunks env.device
        (sub64 env.device.getSizeBytes (chunkBytes env.device))
        (env.device.getSizeBytes / chunkBytes env.device + 2) start env.fresh).2.inovec :=
      scanSteps_scanChunks _ _ _ h1
    rcases hc : s1.scanChunks env.device (sub64 env.device.getSizeBytes (chunkBytes env.device))
      (env.device.getSizeBytes / chunkBytes env.device + 2) start env.fresh
      with ⟨e | ⟨i, chunk⟩, s2⟩
    · rw [hc] at h2
      simp only [doScan, hr, hc]
      exact h2
    · rw [hc] at h2
      simp only [doScan, hr, hc, scanRest]
      cases env.device.readBytes (toInt64 i) (sub64 env.device.getSizeBytes i % 2 ^ 32) chunk with
      | error e => exact h2
      | ok chunk' => exact scanSteps_scanBlocks _ _ _ h2

end Scanner

/-! ### The stages -/

namespace InodeVector

variable {v w : InodeVector} {h : Heap}

theorem scanSteps_removeWhere (hs : Heap.Same env v.heap h) (out : Inode → Bool) :
    ScanSteps env v ({ v with heap := h }.removeWhere out) :=
  (Relation.ReflTransGen.single (.scratch h hs)).tail (.removeWhere out)

theorem scanSteps_filterInostamps (hc : v.heap.Coherent env) :
    ScanSteps env v (v.filterInostamps env) := by
  obtain ⟨hs, _⟩ := foldl_countInostamp v.inodes (m := ∅) hc
  rw [filterInostamps]
  simp only
  cases dominantInostamp (v.inodes.foldl (countInostamp env) (∅, v.heap)).1 with
  | none => exact .single (.scratch _ hs.toSame)
  | some stamp =>
    have hun : Heap.Same env (v.inodes.foldl (countInostamp env) (∅, v.heap)).2
        (v.inodes.foldl Heap.unmark (v.inodes.foldl (countInostamp env) (∅, v.heap)).2) :=
      same_foldl (fun _ _ => Heap.same_unmark) _ _
    refine scanSteps_removeWhere ((hs.toSame.trans hun).trans ?_) (fun ino => ino.isMarked)
    exact same_foldl (same_markBy _) _ _

theorem scanSteps_detectInoExtents (hc : v.heap.Coherent env) :
    ScanSteps env v (v.detectInoExtents env) := by
  have hs1 : Heap.Same env v.heap (v.inodes.foldl Heap.unmark v.heap) :=
    same_foldl (fun _ _ => Heap.same_unmark) _ _
  have hs2 := hs1.trans (same_foldl_extentStep (hs1.coherent hc) (Nat.le_refl v.inodes.length))
  refine scanSteps_removeWhere (hs2.trans ?_) (fun ino => !ino.isMarked)
  exact same_foldl (fun _ _ => Heap.cacheSame_freeDinode.toSame) _ _

theorem scanSteps_removeUnallocated : ScanSteps env v (v.removeUnallocated env) :=
  scanSteps_removeWhere (same_foldl (same_markBy _) _ _) (fun ino => ino.isMarked)

theorem scanSteps_removeDupes (hc : v.heap.Coherent env) : ScanSteps env v (v.removeDupes env) := by
  have hs1 : Heap.Same env v.heap v.unmarkAll.heap :=
    same_foldl (fun _ _ => Heap.same_unmark) v.inodes v.heap
  have hs2 := hs1.trans (cacheSame_generate (v := v.unmarkAll) (hs1.coherent hc)).toSame
  have h1 : ScanSteps env v (v.unmarkAll.generateDiNumberIndex env) :=
    (Relation.ReflTransGen.single (.scratch _ hs2)).tail (.index _ true)
  refine h1.trans (scanSteps_removeWhere ?_ (fun ino => !ino.isMarked))
  exact same_foldl (fun _ _ => Heap.same_mark) _ _

theorem scanSteps_freeDinodes : ScanSteps env v v.freeDinodes :=
  .single (.scratch _ (same_foldl (fun _ _ => Heap.cacheSame_freeDinode.toSame) _ _))

end InodeVector

namespace Scanner

variable {s s' : Scanner}

theorem scanSteps_scanFrom (hv : s.inovec.Sound env) (stage : Stage) :
    ScanSteps env s.inovec (scanFrom env stage s).inovec := by
  have hdupes : ∀ {v : InodeVector}, v.Sound env →
      ScanSteps env v (v.removeDupes env).freeDinodes :=
    fun hv => (scanSteps_removeDupes hv.coherent).trans scanSteps_freeDinodes
  have hunalloc : ∀ {v : InodeVector}, v.Sound env →
      ScanSteps env v ((v.removeUnallocated env).removeDupes env).freeDinodes :=
    fun hv => scanSteps_removeUnallocated.trans (hdupes (hv.steps scanSteps_removeUnallocated))
  cases stage with
  | postScan =>
    have h1 := scanSteps_filterInostamps hv.coherent
    have h2 := h1.trans (scanSteps_detectInoExtents (hv.steps h1).coherent)
    exact h2.trans (hunalloc (hv.steps h2))
  | postExtentscan => exact hunalloc hv
  | postRemoveUnallocated => exact hdupes hv
  | postRemoveDupes => exact .refl

/-- **A scan works on the vector by scan steps.** -/
theorem scanSteps_scan (hv : s.inovec.Sound env) :
    ScanSteps env s.inovec (scan env s).2.inovec := by
  unfold scan
  cases latest s.files with
  | none =>
    have h1 := scanSteps_doScan env s
    rcases hscan : s.doScan env with ⟨e | r, s1⟩
    · rw [hscan] at h1
      exact h1
    · rw [hscan] at h1
      exact h1.trans (scanSteps_scanFrom (s := s1.scanned) (hv.steps h1) .postScan)
  | some stage =>
    have h1 := scanSteps_loadFromPositions env stage.file s.files s.inovec
    rcases hload : s.inovec.loadFromPositions env stage.file s.files with ⟨e | r, v⟩
    · rw [hload] at h1
      simp only [hload]
      exact h1
    · rw [hload] at h1
      simp only [hload]
      exact h1.trans (scanSteps_scanFrom (s := { s with inovec := v }) (hv.steps h1) stage)

theorem scanFrom_ok (stage : Stage) (h : s.inovec.diNumberIndexOk = false) :
    (scanFrom env stage s).inovec.diNumberIndexOk = false := by
  cases stage with
  | postScan => rfl
  | postExtentscan => rfl
  | postRemoveUnallocated => rfl
  | postRemoveDupes => exact h

theorem scan_ok (h : scan env s = (.ok (), s')) : s'.inovec.diNumberIndexOk = false := by
  unfold scan at h
  cases hl : latest s.files with
  | none =>
    rw [hl] at h
    rcases hscan : s.doScan env with ⟨e | r, s1⟩
    · simp only [hscan] at h
      cases h
    · simp only [hscan] at h
      rw [← (Prod.mk.inj h).2]
      rfl
  | some stage =>
    rw [hl] at h
    rcases hload : s.inovec.loadFromPositions env stage.file s.files with ⟨e | r, v⟩
    · simp only [hload] at h
      cases h
    · simp only [hload] at h
      rw [← (Prod.mk.inj h).2]
      refine scanFrom_ok stage ?_
      have hok : (s.inovec.loadFromPositions env stage.file s.files).1 = .ok () := by rw [hload]
      obtain ⟨ns, ms, f, bo, _, _, hv⟩ := loadFromPositions_ok hok
      rw [hload] at hv
      dsimp only at hv
      rw [hv]
      rfl

end Scanner

end Jfsrec
