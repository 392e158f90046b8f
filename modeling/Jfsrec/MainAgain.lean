import Jfsrec.CopiedVolume
import Jfsrec.Main

/-!
# A run behind the last stage

A run that was killed in the recovery, or that has come to its end, leaves the positions of all
stages.  The next run goes straight to the recovery, with the last inode twice, and so it restores
the volume as it is moved by the copy: `main_restores_again`.
-/

namespace Jfsrec

open Lib InodeVector Recoverer

/-- Where a run behind the last stage puts the inodes of a volume whose last inode is `x`. -/
def placesAgain (entries : ℕ → List DirEntry) (pathOf : ℕ → Path) (l : List View) (x : View) :
    List (View × Path) :=
  l.map (fun y => (y, movedPath entries pathOf x (pathOf y.diNumber))) ++ [(x, copyPath pathOf x)]

variable {env : Env} {legal : List Char → Bool} {o : PrioOptions} {v : InodeVector}
  {fs : FileSystem} {entries : ℕ → List DirEntry} {pathOf : ℕ → Path}
  {trees : ℕ → FileInode.XtTree} {front : List Ptr} {p q : Ptr} {x : View}

theorem CopiedVolume.views_eq (h : CopiedVolume legal env v entries pathOf front p q) :
    v.inodes.map (fun r => (v.heap.view env r, copiedPath env v entries pathOf p q r))
      = placesAgain entries pathOf ((withoutLast v).views env) (v.heap.view env p) := by
  have hlist : v.inodes = (withoutLast v).inodes ++ [q] := by
    rw [h.inodes₀, h.copied.inodes]
    simp
  rw [hlist, List.map_append, List.map_singleton, placesAgain, views, List.map_map,
    copiedPath_copy, h.copied.view]
  congr 1
  refine List.map_congr_left (fun r hr => ?_)
  have hrq : r ≠ q := fun heq => h.notMem_q (heq ▸ hr)
  rw [copiedPath, if_neg hrq]
  rfl

theorem CopiedVolume.exists_fuel_names (h : CopiedVolume legal env v entries pathOf front p q) :
    ∃ fuel, ∀ n, fuel ≤ n → ∀ r ∈ v.inodes, (v.heap.obj r).extractInodeNames env n
      = some (volumeNames entries v.heap r) := by
  obtain ⟨fuel, hfuel⟩ := h.volume.exists_fuel_names
  refine ⟨fuel, fun n hn r hr => ?_⟩
  rcases h.mem_inodes.mp hr with hr | rfl
  · exact hfuel n hn r hr
  · rw [h.copied.names]
    refine Eq.trans ?_ (hfuel n hn p h.mem_p)
    exact Inode.extractInodeNames_congr h.copied.kind h.copied.number
      (congrArg View.byteOffset h.copied.view)

theorem CopiedVolume.mem_views (h : CopiedVolume legal env v entries pathOf front p q) {y : View} :
    y ∈ v.views env ↔ y ∈ (withoutLast v).views env := by
  constructor
  · intro hy
    obtain ⟨r, hr, rfl⟩ := List.mem_map.mp hy
    rcases h.mem_inodes.mp hr with hr | rfl
    · exact List.mem_map_of_mem hr
    · rw [h.copied.view]
      exact List.mem_map_of_mem h.mem_p
  · intro hy
    obtain ⟨r, hr, rfl⟩ := List.mem_map.mp hy
    exact List.mem_map_of_mem (h.mem_inodes.mpr (Or.inl hr))

/-- **A volume with its last inode twice is recovered.** -/
theorem CopiedVolume.exists_fuel_recoverOn
    (h : CopiedVolume legal env v entries pathOf front p q) (hhanded : Handed env v)
    (hslots : ∀ x ∈ (withoutLast v).views env, env.device.Slot x.byteOffset)
    (hheld : FilesHeld env ((withoutLast v).views env) trees) (hbelow : ExcludesBelow o)
    (hempty : ∀ q, fs.file q = none) (clock : Ptr → Moment) (now : ℤ) (b : Buffer) :
    ∃ fuel, ∀ n, fuel ≤ n → ∃ fs', recoverOn env legal n o clock now v fs b = some fs' ∧
      RestoresAt env o clock (placesAgain entries pathOf ((withoutLast v).views env)
        (v.heap.view env p)) trees fs' := by
  rw [← h.views_eq]
  exact Jfsrec.exists_fuel_recoverOn hhanded h.nothingToReadmit h.orderly h.recovered_eq
    h.exists_fuel_names (fun y hy => hslots y (h.mem_views.mp hy))
    (fun y hy => hheld y (h.mem_views.mp hy)) h.digits hbelow hempty clock now b

variable {dev : Device} {files : Files}

/-- **Behind the last stage the recovery gets the volume with its last inode twice.** -/
theorem exists_copiedVolume (hbig : chunkBytes dev ≤ dev.getSizeBytes)
    (hstamps : StampsSettled dev.found) (hkills : Scanner.KilledRuns dev files)
    (hlatest : Scanner.latest files = some .postRemoveDupes) (henv : env.device = dev)
    (hdigits : ∀ n, legal (Nat.toDigits 10 n) = true)
    (hroot : legal "original_root".toList = true)
    (hvol : Volume legal dev (Stage.postRemoveDupes.left dev.found) entries pathOf)
    (hlast : (Stage.postRemoveDupes.left dev.found).getLast? = some x)
    (hroom : RoomForCopy (Stage.postRemoveDupes.left dev.found) entries pathOf x) (ok : Bool) :
    ∃ v front p q, Scanner.scan env ⟨start ok, files⟩ = (.ok (), ⟨v, files⟩) ∧ Handed env v ∧
      CopiedVolume legal env v entries pathOf front p q ∧ v.heap.view env p = x ∧
      (withoutLast v).views env = Stage.postRemoveDupes.left dev.found := by
  have hkept : Stage.postRemoveDupes.left dev.found ≠ [] := by
    rintro hnil
    rw [hnil] at hlast
    cases hlast
  obtain ⟨hscan, hhanded, front, p, q, hlist, hview, hleft⟩ :=
    exists_copied hbig hkept hstamps hkills hlatest henv ok
  subst henv
  refine ⟨_, front, p, q, hscan, hhanded, ?_⟩
  generalize (Scanner.scan env ⟨start ok, files⟩).2.inovec = v at hhanded hlist hview hleft ⊢
  have hnames : volumeNames entries v.heap q = volumeNames entries v.heap p := by
    have hkind : (v.heap.obj q).kind = (v.heap.obj p).kind := congrArg View.kind hview
    have hnum : v.heap.number q = v.heap.number p := congrArg View.diNumber hview
    rw [volumeNames, listing, listing, hnum]
    exact if_congr (by rw [Heap.isDir, Heap.isDir, hkind]) rfl rfl
  have hdrop : v.inodes.dropLast = front ++ [p] := by
    have hsplit : front ++ [p, q] = front ++ [p] ++ [q] := by simp
    rw [hlist, hsplit, List.dropLast_concat]
  have hx : v.heap.view env p = x := by
    have hmap : ((withoutLast v).views env).getLast? = some (v.heap.view env p) := by
      show (v.inodes.dropLast.map (v.heap.view env)).getLast? = _
      rw [hdrop, List.map_append, List.map_singleton, List.getLast?_concat]
    rw [hleft, hlast] at hmap
    exact (Option.some.inj hmap).symm
  have hnodup : ((withoutLast v).inodes.map v.heap.number).Nodup := by
    have h := nodup_left env.device.found
    rw [← hleft, views, List.map_map] at h
    exact h
  refine ⟨⟨?_, hnodup, ⟨hlist, hhanded.nodup, hview, hnames⟩, ?_, hhanded.indexed,
    hhanded.unnamed, hdigits, hroot⟩, hx, hleft⟩
  · rw [hleft]
    exact hvol
  · rw [hleft, hx]
    exact hroom

/-- **An intact device comes out whole again.**  Behind the last stage a run into an empty output
directory restores every directory and every file of the volume, as one from the start does, but
puts what the last inode lists into its copy. -/
theorem main_restores_again (hbig : chunkBytes dev ≤ dev.getSizeBytes)
    (hstamps : StampsSettled dev.found) (hkills : Scanner.KilledRuns dev files)
    (hlatest : Scanner.latest files = some .postRemoveDupes) (henv : env.device = dev)
    (hdigits : ∀ n, legal (Nat.toDigits 10 n) = true)
    (hroot : legal "original_root".toList = true)
    (hvol : Volume legal dev (Stage.postRemoveDupes.left dev.found) entries pathOf)
    (hheld : FilesHeld env (Stage.postRemoveDupes.left dev.found) trees)
    (hlast : (Stage.postRemoveDupes.left dev.found).getLast? = some x)
    (hroom : RoomForCopy (Stage.postRemoveDupes.left dev.found) entries pathOf x)
    (hbelow : ExcludesBelow o) (hempty : ∀ q, fs.file q = none) (clock : Ptr → Moment) (now : ℤ)
    (ok : Bool) (b : Buffer) :
    ∃ fuel, ∀ n, fuel ≤ n → ∃ fs',
      main env legal n o clock now ok files fs b = some (files, fs') ∧
        RestoresAt env o clock
          (placesAgain entries pathOf (Stage.postRemoveDupes.left dev.found) x) trees fs' := by
  obtain ⟨v, front, p, q, hscan, hhanded, hcopied, rfl, hleft⟩ := exists_copiedVolume hbig hstamps
    hkills hlatest henv hdigits hroot hvol hlast hroom ok
  subst henv
  rw [← hleft] at hheld ⊢
  have hslots : ∀ y ∈ (withoutLast v).views env, env.device.Slot y.byteOffset := by
    intro y hy
    rw [hleft] at hy
    exact (onDevice_found y (left_subset .postRemoveDupes _ hy)).slot
  obtain ⟨fuel, hfuel⟩ :=
    hcopied.exists_fuel_recoverOn hhanded hslots hheld hbelow hempty clock now b
  refine ⟨fuel, fun n hn => ?_⟩
  obtain ⟨fs', hrun, hrestores⟩ := hfuel n hn
  refine ⟨fs', ?_, hrestores⟩
  rw [main, hscan]
  dsimp only
  rw [hrun, Option.map_some]

/-! ### An example -/

theorem last_smallVolume :
    (Stage.postRemoveDupes.left smallVolume.device.found).getLast? = some smallFile := by
  rw [left_smallVolume]
  rfl

theorem roomForCopy_smallVolume :
    RoomForCopy [smallRoot, smallFile] (fun _ => [smallEntry]) smallPath smallFile := by
  refine ⟨fun hunder => Kind.noConfusion hunder.1, fun y hy => ?_⟩
  rcases List.mem_pair.mp hy with rfl | rfl <;> decide

theorem mem_placesAgain_smallVolume {path : Path}
    (hpath : path ∈ [["original_root".toList, ['a']], [['4']]]) : (smallFile, path)
      ∈ placesAgain (fun _ => [smallEntry]) smallPath [smallRoot, smallFile] smallFile := by
  have hmoved : movedPath (fun _ => [smallEntry]) smallPath smallFile (smallPath 4)
      = ["original_root".toList, ['a']] := by decide
  have hcopy : copyPath smallPath smallFile = [['4']] := by decide
  rcases List.mem_pair.mp hpath with rfl | rfl
  · rw [← hmoved]
    exact List.mem_append_left _ (List.mem_cons_of_mem _ List.mem_cons_self)
  · rw [← hcopy]
    exact List.mem_append_right _ List.mem_cons_self

theorem diSize_smallFile : (1024 : ℕ) < smallFile.dinode.diSize := by decide

theorem hasExtents_smallFile : HasExtents smallVolume smallFile := by
  unfold HasExtents
  decide

/-- The second run makes the file where it is, and once more by its number. -/
theorem main_restores_again_smallVolume : ∃ files, Scanner.KilledRuns smallVolume.device files ∧
    ∃ fuel, ∀ n, fuel ≤ n → ∃ fs,
      main smallVolume (fun _ => true) n ⟨none, none, none⟩ (fun _ => ⟨1, 1, 100⟩) 1 true
        files nothing (fun _ => 9) = some (files, fs) ∧
      ∀ path ∈ [["original_root".toList, ['a']], [['4']]],
        ∃ f, fs.file path = some f ∧ f.content.byte 1024 = 8 := by
  have hleft := left_smallVolume
  have hvol := volume_smallVolume
  have hheld := filesHeld_smallVolume
  have hroom := roomForCopy_smallVolume
  have hempty : ∀ q, nothing.file q = none := fun _ => rfl
  rw [← hleft] at hvol hheld hroom
  obtain ⟨files, hkill, hstage⟩ := exists_killed (by decide) stampsSettled_smallVolume
  obtain ⟨fuel, hfuel⟩ := main_restores_again (o := ⟨none, none, none⟩) (by decide)
    stampsSettled_smallVolume (.single hkill) hstage.latest rfl (fun _ => rfl) rfl hvol hheld
    last_smallVolume hroom (fun _ _ h => Bool.noConfusion h) hempty (fun _ => ⟨1, 1, 100⟩) 1 true
    (fun _ => 9)
  refine ⟨files, .single hkill, fuel, fun n hn => ?_⟩
  obtain ⟨fs, hrun, hrestores⟩ := hfuel n hn
  rw [hleft] at hrestores
  refine ⟨fs, hrun, fun path hpath => ?_⟩
  obtain ⟨f, hf, hfile⟩ := hrestores.files _ (mem_placesAgain_smallVolume hpath) rfl rfl
  obtain ⟨_, hbytes⟩ := hfile.extents hasExtents_smallFile
  exact ⟨f, hf, hbytes.bytes 1024 (Or.inl diSize_smallFile) _ (List.mem_pair.mpr (Or.inr rfl))
    (by decide)⟩

end Jfsrec
