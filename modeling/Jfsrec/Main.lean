import Jfsrec.Handover
import Jfsrec.Volume

/-!
# From the device to the output directory

`main` scans the device, or goes on from what another run has saved, and recovers what the scan
leaves.  Where the device holds a volume, whose files lie in order, this brings every directory and
every file that is not excluded, with its content, and nothing else: `main_restores`.
-/

namespace Jfsrec

open Lib InodeVector Recoverer

/-- `extract_inode_names`: only directories have any. -/
def Inode.extractInodeNames (env : Env) (fuel : ℕ) (ino : Inode) : Option (List InodeName) :=
  match ino.kind with
  | .dir => DirInode.extractInodeNames env fuel ino.diNumber ino.byteOffset
  | _ => some []

namespace Recoverer

def extractedEntries (env : Env) (fuel i : ℕ) (v : InodeVector) : Option InodeVector :=
  let dir := v.inodes.getD i NULL
  ((v.heap.obj dir).extractInodeNames env fuel).map (fun es => es.foldl (nameEntry env dir) v)

def findFileParentsAndNamesOn (env : Env) (fuel : ℕ) (v : InodeVector) : Option InodeVector :=
  (forSizeM (fun v => v.inodes.length) (extractedEntries env fuel)
    (v.inodes.length + v.invalidatedInodes.length + 1) 0 v).map
      (fun v => originalRoot env { v with heap := v.inodes.foldl replaceName v.heap })

def recoverOn (env : Env) (legal : List Char → Bool) (fuel : ℕ) (o : PrioOptions)
    (clock : Ptr → Moment) (now : ℤ) (v : InodeVector) (fs : FileSystem) (buffer : Buffer) :
    Option FileSystem :=
  (findDirectoryParents env v).bind (fun v =>
    (findFileParentsAndNamesOn env fuel v).bind (fun v =>
      recoverAssociated env legal fuel o clock now v fs buffer))

end Recoverer

/-- What `main` leaves in the progress directory and in the output directory; `none` when it does
not return. -/
def main (env : Env) (legal : List Char → Bool) (fuel : ℕ) (o : PrioOptions)
    (clock : Ptr → Moment) (now : ℤ) (ok : Bool) (files : Files) (fs : FileSystem)
    (buffer : Buffer) : Option (Files × FileSystem) :=
  match Scanner.scan env ⟨start ok, files⟩ with
  | (.error _, _) => none
  | (.ok _, s) =>
      (recoverOn env legal fuel o clock now s.inovec fs buffer).map (fun fs => (s.files, fs))

variable {env : Env} {legal : List Char → Bool} {fuel : ℕ} {o : PrioOptions}
  {clock : Ptr → Moment} {now : ℤ} {v w : InodeVector} {fs fs' : FileSystem} {b : Buffer}
  {names : Ptr → List InodeName} {entries : ℕ → List DirEntry} {pathOf : ℕ → Path}

/-! ### The names on the device -/

theorem Inode.extractInodeNames_congr {ino ino' : Inode} (hkind : ino'.kind = ino.kind)
    (hnumber : ino'.diNumber = ino.diNumber) (hoffset : ino'.byteOffset = ino.byteOffset) :
    ino'.extractInodeNames env fuel = ino.extractInodeNames env fuel := by
  rw [extractInodeNames, extractInodeNames, hkind, hnumber, hoffset]

namespace Recoverer

/-- **Where all names can be read, reading them in turn makes no difference.** -/
theorem findFileParentsAndNamesOn_eq (hn : NothingToReadmit names v) (hv : v.Indexed env)
    (hnames : ∀ p ∈ v.inodes, (v.heap.obj p).extractInodeNames env fuel = some (names p))
    (hw : findDirectoryParents env v = some w) :
    findFileParentsAndNamesOn env fuel w = findFileParentsAndNames env names w := by
  have hunchanged : Unchanged env v w := Unchanged.findDirectoryParents hn hv hw
  have hloop : forSizeM (fun v => v.inodes.length) (extractedEntries env fuel)
      (w.inodes.length + w.invalidatedInodes.length + 1) 0 w
      = forSize (fun v => v.inodes.length) (nameEntries env names)
        (w.inodes.length + w.invalidatedInodes.length + 1) 0 w := by
    refine forSizeM_eq (I := fun _ u => Unchanged env v u) (fun i u hu hi => ?_) hunchanged
    refine ⟨hu.entries hn hi (List.Subset.refl _), ?_⟩
    have hmem : u.inodes.getD i NULL ∈ v.inodes := by
      rw [← hu.inodes, List.getD_eq_getElem?_getD, List.getElem?_eq_getElem hi]
      exact List.getElem_mem hi
    have hview := congrFun hu.frame.view (u.inodes.getD i NULL)
    rw [extractedEntries, nameEntries, Inode.extractInodeNames_congr (congrArg View.kind hview)
      (congrArg View.diNumber hview) (congrArg View.byteOffset hview), hnames _ hmem]
    rfl
  rw [findFileParentsAndNamesOn, hloop]
  rfl

theorem recoverOn_eq (hn : NothingToReadmit names v) (hv : v.Indexed env)
    (hnames : ∀ p ∈ v.inodes, (v.heap.obj p).extractInodeNames env fuel = some (names p))
    (o : PrioOptions) (clock : Ptr → Moment) (now : ℤ) (fs : FileSystem) (b : Buffer) :
    recoverOn env legal fuel o clock now v fs b
      = recover env legal fuel names o clock now v fs b := by
  obtain ⟨w, hw, -, -⟩ := findDirectoryParents_spec hv
  rw [recoverOn, recover, hw, Option.bind_some, Option.bind_some,
    findFileParentsAndNamesOn_eq hn hv hnames hw]

end Recoverer

theorem Volume.exists_fuel_names
    (hvol : Volume legal env.device (v.views env) entries pathOf) : ∃ fuel, ∀ n, fuel ≤ n →
      ∀ p ∈ v.inodes, (v.heap.obj p).extractInodeNames env n
        = some (volumeNames entries v.heap p) := by
  refine exists_fuel_forall (fun p hp => ?_)
  have hview : v.heap.view env p ∈ v.views env := List.mem_map_of_mem hp
  by_cases hdir : v.heap.isDir p
  · obtain ⟨fuel, hfuel⟩ :=
      exists_fuel_extractInodeNames (hvol.pages _ hview hdir) (v.heap.number p)
    refine ⟨fuel, fun n hn => ?_⟩
    have hkind : (v.heap.obj p).kind = .dir := hdir
    rw [Inode.extractInodeNames, hkind, volumeNames, listing, if_pos hdir]
    exact hfuel n hn
  · refine ⟨0, fun n _ => ?_⟩
    rw [volumeNames, listing, if_neg hdir, Inode.extractInodeNames]
    split
    · rename_i hkind
      exact absurd hkind hdir
    · rfl

/-! ### The run -/

/-- `remove_dupes` leaves one inode of every number. -/
theorem nodup_left (l : List View) :
    ((Stage.postRemoveDupes.left l).map View.diNumber).Nodup := by
  have hleft : Stage.postRemoveDupes.left l
      = keepAt (keepNewest (Stage.postRemoveUnallocated.left l))
        (Stage.postRemoveUnallocated.left l) := rfl
  rw [hleft, List.Nodup, List.pairwise_map]
  generalize Stage.postRemoveUnallocated.left l = m
  refine pairwise_keepAt (fun i j x y hij hi hj hx hy heq => ?_)
  -- the first would have to be older than the second, which would have to be no newer
  simp only [keepNewest, hx, hy, Option.all_some, Bool.and_eq_true, List.all_eq_true,
    decide_eq_true_eq] at hi hj
  obtain ⟨hilt, hxi⟩ := List.getElem?_eq_some_iff.mp hx
  obtain ⟨hjlt, hyj⟩ := List.getElem?_eq_some_iff.mp hy
  have hlate : y ∈ m.drop (i + 1) := by
    refine List.mem_drop_iff_getElem.mpr ⟨j - (i + 1), by omega, ?_⟩
    rw [← hyj]
    congr 1
    omega
  have hearly : x ∈ m.take j := List.mem_take_iff_getElem.mpr ⟨i, by omega, hxi⟩
  exact absurd (hj.1 x hearly heq) (not_lt.mpr (hi.2 y hlate heq.symm))

def HasExtents (env : Env) (x : View) : Prop :=
  2 < Xtpage.nextindex (FileInode.dinodeMemory env x.dinode) FileInode.rootPos

/-- The files in `l` that have extents have the trees of `trees`, whose extents lie in order. -/
def FilesHeld (env : Env) (l : List View) (trees : ℕ → FileInode.XtTree) : Prop :=
  ∀ x ∈ l, x.kind = .file → HasExtents env x → FileInode.Held env x.dinode (trees x.diNumber)

/-- What comes of a file: the bytes of its extents, whatever is written early of the last ones, and
an empty file if it has none. -/
structure RestoredFile (env : Env) (clock : Ptr → Moment) (trees : ℕ → FileInode.XtTree) (x : View)
    (f : OutFile) : Prop where
  extents : HasExtents env x → ∃ p,
    FileInode.Restored env x.dinode (trees x.diNumber).leafXads (clock p).early f
  empty : ¬ HasExtents env x → f = x.dinode.emptyFile

/-- The output directory has the directories and the files of `l` that are not excluded, each at its
path, and no other files. -/
structure Restores (env : Env) (o : PrioOptions) (clock : Ptr → Moment) (l : List View)
    (pathOf : ℕ → Path) (trees : ℕ → FileInode.XtTree) (fs : FileSystem) : Prop where
  dirs : ∀ x ∈ l, x.kind = .dir → found o.exclude (pathOf x.diNumber) = false →
    fs.IsDir (pathOf x.diNumber)
  files : ∀ x ∈ l, x.kind = .file → found o.exclude (pathOf x.diNumber) = false →
    ∃ f, fs.file (pathOf x.diNumber) = some f ∧ RestoredFile env clock trees x f
  nothing : ∀ q f, fs.file q = some f → ∃ x ∈ l, x.kind = .file ∧
    found o.exclude (pathOf x.diNumber) = false ∧ pathOf x.diNumber = q

variable {trees : ℕ → FileInode.XtTree}

theorem getDinode_of_views (hslots : ∀ x ∈ v.views env, env.device.Slot x.byteOffset) {p : Ptr}
    (hp : p ∈ v.inodes) : env.getDinode (v.heap.obj p).byteOffset
      = .ret (v.heap.view env p).dinode :=
  Env.getDinode_of_slot (hslots _ (List.mem_map_of_mem hp))

theorem FilesHeld.passes (hheld : FilesHeld env (v.views env) trees)
    (hslots : ∀ x ∈ v.views env, env.device.Slot x.byteOffset) {p : Ptr} (hp : p ∈ v.inodes)
    (path : Path) : (v.heap.obj p).Passes env (worldOf clock fs p path) := by
  have hdinode := getDinode_of_views hslots hp
  unfold Inode.Passes
  split
  · rename_i hkind
    intro _ _ d hd hext
    obtain rfl := Outcome.ret.inj (hdinode.symm.trans hd)
    obtain ⟨fuel, hfuel⟩ :=
      (hheld _ (List.mem_map_of_mem hp) hkind hext).exists_fuel_collectXads
    exact FileInode.treeReadable_iff.mpr ⟨fuel, by rw [hfuel fuel (Nat.le_refl _)]; rfl⟩
  · exact ⟨⟨rfl, rfl⟩, ⟨_, hdinode⟩, rfl, rfl⟩
  · trivial

/-- Every directory and every file that is not excluded is at the path that goes with it, and there
are no other files. -/
structure RestoresAt (env : Env) (o : PrioOptions) (clock : Ptr → Moment)
    (places : List (View × Path)) (trees : ℕ → FileInode.XtTree) (fs : FileSystem) : Prop where
  dirs : ∀ c ∈ places, c.1.kind = .dir → found o.exclude c.2 = false → fs.IsDir c.2
  files : ∀ c ∈ places, c.1.kind = .file → found o.exclude c.2 = false →
    ∃ f, fs.file c.2 = some f ∧ RestoredFile env clock trees c.1 f
  nothing : ∀ q f, fs.file q = some f → ∃ c ∈ places, c.1.kind = .file ∧
    found o.exclude c.2 = false ∧ c.2 = q

theorem RestoresAt.restores {l : List View}
    (h : RestoresAt env o clock (l.map (fun x => (x, pathOf x.diNumber))) trees fs) :
    Restores env o clock l pathOf trees fs := by
  refine ⟨fun x hx => h.dirs _ (List.mem_map_of_mem hx), fun x hx =>
    h.files _ (List.mem_map_of_mem hx), fun q f hf => ?_⟩
  obtain ⟨c, hc, hkind, hex, hpath⟩ := h.nothing q f hf
  obtain ⟨x, hx, rfl⟩ := List.mem_map.mp hc
  exact ⟨x, hx, hkind, hex, hpath⟩

/-- **A vector whose names are in order is recovered.** -/
theorem exists_fuel_recoverOn {placed : Ptr → Path} (hhanded : Handed env v)
    (hn : NothingToReadmit names v) (ho : Orderly legal env names v placed)
    (hin : recovered env names v = v.inodes)
    (hnames : ∃ fuel, ∀ n, fuel ≤ n → ∀ p ∈ v.inodes,
      (v.heap.obj p).extractInodeNames env n = some (names p))
    (hslots : ∀ x ∈ v.views env, env.device.Slot x.byteOffset)
    (hheld : FilesHeld env (v.views env) trees) (hdigits : ∀ n, legal (Nat.toDigits 10 n) = true)
    (hbelow : ExcludesBelow o) (hempty : ∀ q, fs.file q = none) (clock : Ptr → Moment) (now : ℤ)
    (b : Buffer) :
    ∃ fuel, ∀ n, fuel ≤ n → ∃ fs', recoverOn env legal n o clock now v fs b = some fs' ∧
      RestoresAt env o clock (v.inodes.map (fun p => (v.heap.view env p, placed p))) trees fs' := by
  have hchosen : ∀ p, p ∈ chosen env names o v placed ↔
      p ∈ v.inodes ∧ found o.exclude (placed p) = false := by
    intro p
    rw [mem_chosen, hin]
  -- enough fuel for the names, for the paths, for the files, and for their extents
  obtain ⟨k₁, hnames⟩ := hnames
  obtain ⟨k₂, hrecover⟩ := exists_fuel_recover hdigits hhanded.indexed hhanded.unnamed ho o
  obtain ⟨k₃, htree⟩ := exists_fuel_recoverTree hhanded.nodup ho hbelow (fun q _ => hempty q) clock
    now b
  obtain ⟨k₄, hxads⟩ : ∃ fuel, ∀ n, fuel ≤ n → ∀ p ∈ v.inodes, (v.heap.obj p).kind = .file →
      HasExtents env (v.heap.view env p) →
      FileInode.collectXads env n (v.heap.view env p).dinode
        = some (.ret (trees (v.heap.number p)).leafXads) := by
    refine exists_fuel_forall (fun p hp => ?_)
    by_cases hfile : (v.heap.obj p).kind = .file ∧ HasExtents env (v.heap.view env p)
    · obtain ⟨fuel, hfuel⟩ :=
        (hheld _ (List.mem_map_of_mem hp) hfile.1 hfile.2).exists_fuel_collectXads
      exact ⟨fuel, fun n hn _ _ => hfuel n hn⟩
    · exact ⟨0, fun n _ hkind hext => absurd ⟨hkind, hext⟩ hfile⟩
  refine ⟨max (max k₁ k₂) (max k₃ k₄), fun n hle => ?_⟩
  rw [recoverOn_eq hn hhanded.indexed (hnames n (by omega)), hrecover n (by omega)]
  obtain ⟨hiff, hleaves⟩ := htree n (by omega)
  obtain ⟨fs', hrun⟩ := hiff.mpr (fun p hp => hheld.passes hslots ((hchosen p).mp hp).1 _)
  have hleft := hleaves fs' hrun
  refine ⟨fs', hrun, fun c hc hkind hex => ?_, fun c hc hkind hex => ?_, fun q f hf => ?_⟩
  · obtain ⟨p, hp, rfl⟩ := List.mem_map.mp hc
    exact hleft.dirs p ((hchosen p).mpr ⟨hp, hex⟩) hkind
  · obtain ⟨p, hp, rfl⟩ := List.mem_map.mp hc
    have hpc := (hchosen p).mpr ⟨hp, hex⟩
    have hdinode := getDinode_of_views hslots hp
    obtain ⟨_, _, f, _, hf⟩ := hleft.files p hpc hkind
    refine ⟨f, hf, fun hext => ⟨p, ?_⟩, fun hext => ?_⟩
    · have hfile := hheld _ (List.mem_map_of_mem hp) hkind hext
      obtain ⟨f', hf', hrestored⟩ := hleft.restored p hpc hkind (hempty _) _ _ hdinode hext
        hfile.size (hxads n (by omega) p hp hkind hext) hfile.placed
      obtain rfl := Option.some.inj (hf.symm.trans hf')
      exact hrestored
    · have hf' := hleft.emptied p hpc hkind (hempty _) _ hdinode (not_lt.mp hext)
      exact Option.some.inj (hf.symm.trans hf')
  · by_contra hnone
    rw [hleft.others q (fun p hp hkind hpath => hnone ?_), hempty] at hf
    · cases hf
    · obtain ⟨hp, hex⟩ := (hchosen p).mp hp
      exact ⟨_, List.mem_map_of_mem hp, hkind, hex, hpath⟩

/-- **A vector with the inodes of a volume is recovered.** -/
theorem Volume.exists_fuel_recoverOn
    (hvol : Volume legal env.device (v.views env) entries pathOf)
    (hnodup : (v.inodes.map v.heap.number).Nodup) (hhanded : Handed env v)
    (hslots : ∀ x ∈ v.views env, env.device.Slot x.byteOffset)
    (hheld : FilesHeld env (v.views env) trees) (hdigits : ∀ n, legal (Nat.toDigits 10 n) = true)
    (hroot : legal "original_root".toList = true) (hbelow : ExcludesBelow o)
    (hempty : ∀ q, fs.file q = none) (clock : Ptr → Moment) (now : ℤ) (b : Buffer) :
    ∃ fuel, ∀ n, fuel ≤ n → ∃ fs', recoverOn env legal n o clock now v fs b = some fs' ∧
      Restores env o clock (v.views env) pathOf trees fs' := by
  have ho := hvol.orderly hnodup hdigits hroot hhanded.indexed hhanded.unnamed
  have hin := hvol.recovered_eq hhanded.indexed hhanded.unnamed
  obtain ⟨fuel, hfuel⟩ := Jfsrec.exists_fuel_recoverOn hhanded hvol.nothingToReadmit ho hin
    hvol.exists_fuel_names hslots hheld hdigits hbelow hempty clock now b
  refine ⟨fuel, fun n hn => ?_⟩
  obtain ⟨fs', hrun, hrestores⟩ := hfuel n hn
  refine ⟨fs', hrun, RestoresAt.restores ?_⟩
  rw [views, List.map_map]
  exact hrestores

variable {dev : Device} {files : Files}

/-- **An intact device comes out whole.**  Where the inodes that a scan keeps are those of a volume,
a run into an empty output directory restores every directory and every file of it that is not
excluded, and brings nothing else: from the start, or behind any stage but the last that runs before
it have saved. -/
theorem main_restores (hbig : chunkBytes dev ≤ dev.getSizeBytes)
    (hstamps : StampsSettled dev.found) (hkills : Scanner.KilledRuns dev files)
    (hlatest : Scanner.latest files ≠ some .postRemoveDupes) (henv : env.device = dev)
    (hdigits : ∀ n, legal (Nat.toDigits 10 n) = true)
    (hroot : legal "original_root".toList = true)
    (hvol : Volume legal dev (Stage.postRemoveDupes.left dev.found) entries pathOf)
    (hheld : FilesHeld env (Stage.postRemoveDupes.left dev.found) trees)
    (hbelow : ExcludesBelow o) (hempty : ∀ q, fs.file q = none) (clock : Ptr → Moment) (now : ℤ)
    (ok : Bool) (b : Buffer) :
    ∃ fuel, ∀ n, fuel ≤ n → ∃ files' fs',
      main env legal n o clock now ok files fs b = some (files', fs') ∧
        Restores env o clock (Stage.postRemoveDupes.left dev.found) pathOf trees fs' := by
  have hkept : Stage.postRemoveDupes.left dev.found ≠ [] := by
    obtain ⟨r, hr, -⟩ := hvol.root
    exact List.ne_nil_of_mem hr
  obtain ⟨s, hscan, hviews, hmem⟩ := scan_of_killedRuns hbig hkept hstamps hkills henv ok
  have hhanded := handed_scan hbig hkept hstamps hkills henv ok
  rw [hscan] at hhanded
  rw [if_neg hlatest, List.append_nil] at hviews
  subst henv
  have hnodup : (s.inovec.inodes.map s.inovec.heap.number).Nodup := by
    have h := nodup_left env.device.found
    rw [← hviews, views, List.map_map] at h
    exact h
  have hslots : ∀ x ∈ s.inovec.views env, env.device.Slot x.byteOffset :=
    fun x hx => (onDevice_found x ((hmem x).mpr (Or.inl hx))).slot
  rw [← hviews] at hvol hheld ⊢
  obtain ⟨fuel, hfuel⟩ := hvol.exists_fuel_recoverOn hnodup hhanded hslots hheld hdigits hroot
    hbelow hempty clock now b
  refine ⟨fuel, fun n hn => ?_⟩
  obtain ⟨fs', hrun, hrestores⟩ := hfuel n hn
  refine ⟨s.files, fs', ?_, hrestores⟩
  rw [main, hscan]
  dsimp only
  rw [hrun, Option.map_some]

/-! ### An example -/

/-- A device of one chunk that begins with an inode extent.  Directory 2 lists inode 4 as `a`, a
file of 1300 bytes with a block, a hole and a block; the other inodes are not allocated. -/
def smallVolume : Env :=
  { Scanner.oneChunk.device with
    data := fun k =>
      if 17408 ≤ k then 0
      else if k % 512 = 40 ∨ k % 512 = 53 ∨ 16384 ≤ k then
        ([(1064, 1), (1077, 0x40), (2088, 1), (2101, 0x80), (16384, 7), (16896, 8)].lookup k).getD 0
      else
        ([(1264, 2), (1265, 1), (1268, 2), (1272, 1), (1280, 4), (1284, 0xFF), (1285, 1),
          (1286, 0x61), (2072, 0x14), (2073, 5), (2288, 2), (2290, 4), (2312, 1), (2316, 32),
          (2324, 2), (2328, 1), (2332, 33)].lookup k).getD
            (Scanner.oneChunk.device.data k) }.zeroed

def smallRoot : View := ⟨.dir, 1024, 2, 2, smallVolume.device.dinodeAt 1024⟩

def smallFile : View := ⟨.file, 2048, 4, 0, smallVolume.device.dinodeAt 2048⟩

theorem found_smallVolume :
    smallVolume.device.found = (smallVolume.device.sane 0 34).map (fun ino => ⟨ino.kind,
      ino.byteOffset, ino.diNumber, ino.parentDiNumber,
      smallVolume.device.dinodeAt ino.byteOffset⟩) := by
  have hsize : smallVolume.device.getSizeBytes / 512 = 34 + (2 ^ 15 - 34) := by decide
  have hrest : smallVolume.device.sane (0 + 34 * 512) (2 ^ 15 - 34) = [] :=
    Device.sane_of_zero (fun k hk => if_pos (by omega)) _
  rw [Device.found, hsize, Device.sane_add, hrest, List.append_nil]

theorem left_smallVolume :
    Stage.postRemoveDupes.left smallVolume.device.found = [smallRoot, smallFile] := by
  rw [found_smallVolume]
  rfl

theorem stampsSettled_smallVolume : StampsSettled smallVolume.device.found := by
  refine stampsSettled_of_length_lt ?_
  rw [found_smallVolume]
  decide +kernel

def smallEntry : DirEntry := { DirInode.nameA with inumber := 4 }

def smallPath (n : ℕ) : Path :=
  if n = 2 then ["original_root".toList] else ["original_root".toList, ['a']]

theorem dirTree_smallVolume : DirTree smallVolume.device 1024 [smallEntry] where
  within := by decide
  mode := by decide
  inline _ := by
    refine ⟨by decide, by decide, fun i e he => ?_⟩
    cases i with
    | zero =>
      obtain rfl : smallEntry = e := Option.some.inj he
      exact DirInode.stored_letter rfl (by decide) (by decide) (by decide) (by decide) (by decide)
        (by decide)
    | succ i => cases he
  tree h := absurd (by decide) h

theorem volume_smallVolume : Volume (fun _ => true) smallVolume.device [smallRoot, smallFile]
    (fun _ => [smallEntry]) smallPath where
  root := ⟨smallRoot, List.mem_cons_self, rfl, rfl, rfl, rfl⟩
  pages d hd hdir := by
    rcases List.mem_pair.mp hd with rfl | rfl
    · exact dirTree_smallVolume
    · cases hdir
  parents d hd hdir := by
    rcases List.mem_pair.mp hd with rfl | rfl
    · exact ⟨smallRoot, List.mem_cons_self, rfl, rfl⟩
    · cases hdir
  listed d hd hdir e he := by
    rcases List.mem_pair.mp hd with rfl | rfl
    · obtain rfl := List.mem_singleton.mp he
      exact ⟨smallFile, by simp, rfl, by decide, rfl⟩
    · cases hdir
  writable d _ _ e he := by
    obtain rfl := List.mem_singleton.mp he
    exact ⟨by decide, by decide, rfl⟩
  unlisted x hx hne hnone := by
    rcases List.mem_pair.mp hx with rfl | rfl
    · exact absurd rfl hne
    · exact absurd rfl (hnone smallRoot List.mem_cons_self rfl smallEntry List.mem_cons_self)
  injective x hx y hy heq := by
    rcases List.mem_pair.mp hx with rfl | rfl <;> rcases List.mem_pair.mp hy with rfl | rfl
    · rfl
    · exact absurd heq (by decide)
    · exact absurd heq (by decide)
    · rfl

def smallXads : List Xad := [.of 0 1 32, .of 2 1 33]

theorem filesHeld_smallVolume :
    FilesHeld smallVolume [smallRoot, smallFile] (fun _ => .leaf smallXads) := by
  intro x hx hkind _
  rcases List.mem_pair.mp hx with rfl | rfl
  · cases hkind
  · refine ⟨by decide, by decide, ⟨by decide, by decide, by decide, by decide⟩, ?_, ?_⟩
    · intro y hy
      rcases List.mem_pair.mp hy with rfl | rfl
      · exact ⟨by decide, by decide⟩
      · exact ⟨by decide, by decide⟩
    · apply List.pairwise_pair.mpr
      rintro n ⟨_, hlt⟩ ⟨hle, _⟩
      have hlt' : n < 1 := hlt
      have hle' : 2 ≤ n := hle
      omega

/-- The run makes the root, and the file in it with both blocks and the hole, and with what comes
late of the last block. -/
theorem main_restores_smallVolume : ∃ fuel, ∀ n, fuel ≤ n → ∃ files fs f,
    main smallVolume (fun _ => true) n ⟨none, none, none⟩ (fun _ => ⟨1, 1, 100⟩) 1 true
      (fun _ => none) nothing (fun _ => 9) = some (files, fs) ∧
    fs.IsDir ["original_root".toList] ∧ fs.file ["original_root".toList, ['a']] = some f ∧
    f.content.size = 1536 ∧ f.content.byte 0 = 7 ∧ f.content.byte 600 = 0 ∧
    f.content.byte 1024 = 8 := by
  have hleft := left_smallVolume
  have hvol := volume_smallVolume
  have hheld := filesHeld_smallVolume
  have hempty : ∀ q, nothing.file q = none := fun _ => rfl
  rw [← hleft] at hvol hheld
  obtain ⟨fuel, hfuel⟩ := main_restores (o := ⟨none, none, none⟩) (by decide)
    stampsSettled_smallVolume .refl (by decide) rfl (fun _ => rfl) rfl hvol hheld
    (fun _ _ h => Bool.noConfusion h) hempty (fun _ => ⟨1, 1, 100⟩) 1 true (fun _ => 9)
  refine ⟨fuel, fun n hn => ?_⟩
  obtain ⟨files, fs, hrun, hrestores⟩ := hfuel n hn
  rw [hleft] at hrestores
  obtain ⟨f, hf, hrestored⟩ := hrestores.files smallFile (by simp) rfl rfl
  obtain ⟨_, hbytes⟩ := hrestored.extents (by unfold HasExtents; decide)
  refine ⟨files, fs, f, hrun, hrestores.dirs smallRoot List.mem_cons_self rfl rfl, hf, ?_, ?_, ?_,
    ?_⟩
  · exact Int.ofNat_inj.mp (hbytes.size.trans (by decide))
  · exact hbytes.bytes 0 (Or.inl (by decide)) _ (List.mem_pair.mpr (Or.inl rfl)) (by decide)
  · exact hbytes.zeros 600 (fun _ => by decide) (by decide)
  · exact hbytes.bytes 1024 (Or.inl (by decide)) _ (List.mem_pair.mpr (Or.inr rfl)) (by decide)

end Jfsrec
