import Jfsrec.Fixpoint

/-!
# Which generation comes back

Several invalidated inodes can bear one number: generations of one file.  The
index takes the newest generation, but the two loops of the recoverer that look
for an invalidated inode compare the other way round and take the oldest.  So
what they bring back is the newest generation only where there is nothing to
choose, `revalidatesNewest_iff`.
-/

namespace Jfsrec

open Lib InodeVector

namespace Recoverer

variable {env : Env} {v w : InodeVector} {di : ℕ} {p : Ptr}

/-- Among the invalidated inodes with the number, none was allocated after `p`. -/
def IsNewestGeneration (env : Env) (v : InodeVector) (di : ℕ) (p : Ptr) : Prop :=
  p ∈ v.getInvalidatedByDiNumber di ∧
    ∀ q ∈ v.getInvalidatedByDiNumber di, otime env v.heap q ≤ otime env v.heap p

def OneGeneration (env : Env) (v : InodeVector) (di : ℕ) : Prop :=
  ∀ p ∈ v.getInvalidatedByDiNumber di, ∀ q ∈ v.getInvalidatedByDiNumber di,
    otime env v.heap p = otime env v.heap q

theorem mem_getInvalidatedByDiNumber (hp : v.store env di = some p) :
    p ∈ v.getInvalidatedByDiNumber di := by
  rw [store_eq_argmin] at hp
  exact List.argmin_mem hp

/-- What the loops select is the oldest, and the newest only if all are of one age. -/
theorem isNewestGeneration_store_iff (hp : v.store env di = some p) :
    IsNewestGeneration env v di p ↔ OneGeneration env v di := by
  have hmem := mem_getInvalidatedByDiNumber hp
  have hmin : ∀ q ∈ v.getInvalidatedByDiNumber di, otime env v.heap p ≤ otime env v.heap q := by
    rw [store_eq_argmin] at hp
    exact fun q hq => List.le_of_mem_argmin hq hp
  refine ⟨fun h q hq r hr => ?_, fun h => ⟨hmem, fun q hq => le_of_eq (h q hq p hmem)⟩⟩
  have hq' : otime env v.heap q = otime env v.heap p := le_antisymm (h.2 q hq) (hmin q hq)
  have hr' : otime env v.heap r = otime env v.heap p := le_antisymm (h.2 r hr) (hmin r hr)
  rw [hq', hr']

theorem exists_store (hne : v.getInvalidatedByDiNumber di ≠ []) : ∃ p, v.store env di = some p := by
  rw [store_eq_argmin]
  exact Option.ne_none_iff_exists'.mp (fun h => hne (List.argmin_eq_none.mp h))

theorem store_of_grown {l : List Ptr} (hg : Grown v.heap.number (v.store env) v.inodes l)
    (hun : di ∉ v.inodes.map v.heap.number) (hp : p ∈ l) (hn : v.heap.number p = di) :
    v.store env di = some p := by
  obtain ⟨new, rfl, _, hpick⟩ := hg
  rcases List.mem_append.mp hp with hp | hp
  · exact absurd (List.mem_map.mpr ⟨p, hp, hn⟩) hun
  · rw [← hn]
    exact (hpick p hp).2

theorem directoryParent_revalidates {i : ℕ} {c : Ptr} (hv : v.Indexed env)
    (hun : di ∉ v.inodes.map v.heap.number) (hp : v.store env di = some p)
    (hi : v.inodes[i]? = some c) (hdir : v.heap.isDir c)
    (hdi : (v.heap.obj c).parentDiNumber = di) :
    (directoryParent env i v).inodes = v.inodes ++ [p] ∧
      ((directoryParent env i v).heap.obj c).parent = p := by
  obtain ⟨w, hw, heq⟩ := (directoryParent_spec hv hi).2 hdir
  rw [hdi] at hw heq
  rw [lookup_asked_of_not hun hw, hp] at heq
  simp only at heq
  rw [if_neg (fun h => hun h.2)] at heq
  rw [heq]
  exact ⟨hw.inodes.trans (request_of_some hun hp), (Heap.parent_setParent c).trans (if_pos rfl)⟩

theorem nameEntry_revalidates {dir : Ptr} {e : InodeName} (hv : v.Indexed env)
    (hun : di ∉ v.inodes.map v.heap.number) (hp : v.store env di = some p)
    (he : e.diNumber = di) :
    (nameEntry env dir v e).inodes = v.inodes ++ [p] ∧
      (nameEntry env dir v e).heap.links p = (dir, e.name) := by
  obtain ⟨w, hw, heq⟩ := nameEntry_spec hv dir e
  rw [he] at hw heq
  rw [lookup_asked_of_not hun hw, hp] at heq
  have hname := congrFun (Heap.links_setName (h := w.heap) (p := p) e.name) p
  have hlink := congrFun (Heap.links_setParent (h := w.heap.setName p e.name) (p := p)
    (i := dir)) p
  rw [Function.update_self] at hname hlink
  have hsnd : ((w.heap.setName p e.name).obj p).name = e.name := congrArg Prod.snd hname
  rw [heq]
  exact ⟨hw.inodes.trans (request_of_some hun hp), hlink.trans (by rw [hsnd])⟩

/-- **Revalidation picks the newest generation**, if and only if all are of one age.
For a number that no valid inode has: in a round of the first loop whose
directory asks for it as its parent, in a round of the second whose entry names
it, and in the results of both functions. -/
theorem revalidatesNewest_iff (names : Ptr → List InodeName) (hv : v.Indexed env)
    (hun : di ∉ v.inodes.map v.heap.number) (hne : v.getInvalidatedByDiNumber di ≠ []) :
    (∀ i c, v.inodes[i]? = some c → v.heap.isDir c → (v.heap.obj c).parentDiNumber = di →
      ∃ p, (directoryParent env i v).inodes = v.inodes ++ [p] ∧
        ((directoryParent env i v).heap.obj c).parent = p ∧
        (IsNewestGeneration env v di p ↔ OneGeneration env v di)) ∧
    (∀ dir e, e.diNumber = di →
      ∃ p, (nameEntry env dir v e).inodes = v.inodes ++ [p] ∧
        (nameEntry env dir v e).heap.links p = (dir, e.name) ∧
        (IsNewestGeneration env v di p ↔ OneGeneration env v di)) ∧
    (∃ w, findDirectoryParents env v = some w ∧ ∀ p ∈ w.inodes, v.heap.number p = di →
        (IsNewestGeneration env v di p ↔ OneGeneration env v di)) ∧
    ∃ w, findFileParentsAndNames env names v = some w ∧ ∀ p ∈ w.inodes, v.heap.number p = di →
        (IsNewestGeneration env v di p ↔ OneGeneration env v di) := by
  obtain ⟨p, hp⟩ := @exists_store env _ _ hne
  refine ⟨fun i c hi hdir hdi => ?_, fun dir e he => ?_, ?_, ?_⟩
  · obtain ⟨hin, hpar⟩ := directoryParent_revalidates hv hun hp hi hdir hdi
    exact ⟨p, hin, hpar, isNewestGeneration_store_iff hp⟩
  · obtain ⟨hin, hlinks⟩ := @nameEntry_revalidates env v di p dir e hv hun hp he
    exact ⟨p, hin, hlinks, isNewestGeneration_store_iff hp⟩
  · obtain ⟨w, hw, hrec, hin⟩ := findDirectoryParents_spec hv
    refine ⟨w, hw, fun q hq hn => isNewestGeneration_store_iff ?_⟩
    rw [hin] at hq
    exact store_of_grown (parentClosure_explored env v).grown hun hq hn
  · obtain ⟨w, hw, hrec, hin, _⟩ := findFileParentsAndNames_spec names hv
    refine ⟨w, hw, fun q hq hn => isNewestGeneration_store_iff ?_⟩
    rw [hin] at hq
    exact store_of_grown (nameClosure_explored env names v).grown hun hq hn

/-! ### An example -/

/-- Directory 3, and two generations of directory 4, the second of them newer. -/
def threeDirs : Env :=
  Device.zeroed
    { blocksize := .b512
      isBlk := true
      stSize := 1536
      data := fun k =>
        if k % 512 = 4 then 16 else if k % 512 = 8 then if k < 512 then 3 else 4
        else if k % 512 = 16 then 4 else if k % 512 = 40 then 1
        else if k % 512 = 53 then 0x40 else if k = 1104 then 1 else if k = 244 then 4 else 0
      stSize_lt := by decide }

/-- Directory 3 is valid, and both generations of its parent are not. -/
def orphaned : InodeVector :=
  (((start false).addBuilt addInode (built threeDirs 0)).addBuilt pushInvalidated
    (built threeDirs 512)).addBuilt pushInvalidated (built threeDirs 1024)

theorem indexed_orphaned : orphaned.Indexed threeDirs := by
  have hone := (sound_start threeDirs false).step
    (.addInode (built threeDirs 0) (fun ino hino => built_new hino))
  have htwo := hone.step (.pushInvalidated (built threeDirs 512) (fun ino hino => built_new hino))
  have hthree := htwo.step
    (.pushInvalidated (built threeDirs 1024) (fun ino hino => built_new hino))
  exact hthree.indexed (by decide) (by decide)

/-- The same directories, with both generations of one age. -/
def twinDirs : Env :=
  { threeDirs.device with
    data := fun k => if k = 1104 then 0 else threeDirs.device.data k }.zeroed

def orphanedTwins : InodeVector :=
  (((start false).addBuilt addInode (built twinDirs 0)).addBuilt pushInvalidated
    (built twinDirs 512)).addBuilt pushInvalidated (built twinDirs 1024)

theorem indexed_orphanedTwins : orphanedTwins.Indexed twinDirs := by
  have hone := (sound_start twinDirs false).step
    (.addInode (built twinDirs 0) (fun ino hino => built_new hino))
  have htwo := hone.step (.pushInvalidated (built twinDirs 512) (fun ino hino => built_new hino))
  have hthree := htwo.step
    (.pushInvalidated (built twinDirs 1024) (fun ino hino => built_new hino))
  exact hthree.indexed (by decide) (by decide)

/-- Of two generations of one age either is the newest. -/
theorem revalidatesNewest_orphanedTwins :
    orphanedTwins.getInvalidatedByDiNumber 4 = [2, 3] ∧
      ∃ p, (directoryParent twinDirs 0 orphanedTwins).inodes = [1, p] ∧
        IsNewestGeneration twinDirs orphanedTwins 4 p := by
  have hlist : orphanedTwins.getInvalidatedByDiNumber 4 = [2, 3] := by decide
  have hone : OneGeneration twinDirs orphanedTwins 4 := by
    have hage : ∀ p ∈ [2, 3], ∀ q ∈ [2, 3],
        otime twinDirs orphanedTwins.heap p = otime twinDirs orphanedTwins.heap q := by
      decide +kernel
    rw [← hlist] at hage
    exact hage
  obtain ⟨hround, -⟩ := @revalidatesNewest_iff twinDirs orphanedTwins 4 (fun _ => [])
    indexed_orphanedTwins (by decide) (by rw [hlist]; decide)
  obtain ⟨p, hin, -, hiff⟩ := hround 0 1 (by decide) (by decide) (by decide)
  exact ⟨hlist, p, hin, hiff.mpr hone⟩

/-- **The older generation comes back**, as parent and as child. -/
theorem not_revalidatesNewest_orphaned : orphaned.Indexed threeDirs ∧
    (directoryParent threeDirs 0 orphaned).inodes = [1, 2] ∧
      (nameEntry threeDirs 1 orphaned ⟨['d'], 4⟩).inodes = [1, 2] ∧
      ¬ IsNewestGeneration threeDirs orphaned 4 2 := by
  refine ⟨indexed_orphaned, by decide +kernel, by decide +kernel, fun h => ?_⟩
  exact absurd (h.2 3 (by decide)) (by decide +kernel)

end Recoverer

end Jfsrec
