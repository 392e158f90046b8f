import Jfsrec.KilledRecovery
import Jfsrec.MainAgain
import Jfsrec.SameDevice

/-!
# Killing the program

A user may kill the program and start it again.  A run that is killed in the scan has saved the
positions of some stages, and one that is killed in the recovery those of all, and has restored some
files and left one in the middle.  `main_restores_after_kills` says that the next run restores all
the others, whether it starts from the beginning or goes on from any stage.
-/

namespace Jfsrec

open Lib InodeVector Recoverer

/-! ### Places -/

structure Unambiguous (places : List (View × Path)) : Prop where
  same : ∀ c ∈ places, ∀ d ∈ places, c.2 = d.2 → c.1.byteOffset = d.1.byteOffset
  apart : ∀ c ∈ places, ∀ d ∈ places, c.1.kind = .file → d.1.kind = .dir → ¬ c.2 <+: d.2
  ne_nil : ∀ c ∈ places, c.2 ≠ []

/-- The turns are for inodes at these places, and `early` says how much `stdio` writes early. -/
structure AtPlaces (early : ℕ → ℕ) (places : List (View × Path)) (us : List Turn) : Prop where
  nodup : (us.map Turn.path).Nodup
  placed : ∀ u ∈ us, ∃ c ∈ places, u.ino.kind = c.1.kind ∧ u.ino.byteOffset = c.1.byteOffset ∧
    u.path = c.2 ∧ u.early = early c.1.byteOffset

variable {early : ℕ → ℕ} {places places' : List (View × Path)} {us ts : List Turn} {q : Path}

theorem AtPlaces.mono (h : AtPlaces early places us) (hsub : places ⊆ places') :
    AtPlaces early places' us := by
  refine ⟨h.nodup, fun u hu => ?_⟩
  obtain ⟨c, hc, hrest⟩ := h.placed u hu
  exact ⟨c, hsub hc, hrest⟩

theorem AtPlaces.not_inTree (hp : Unambiguous places) (hus : AtPlaces early places us)
    {c : View × Path} (hc : c ∈ places) (hfile : c.1.kind = .file) : ¬ InTree us c.2 := by
  rintro (hroot | ⟨u, hu, hdir, hpre⟩)
  · exact hp.ne_nil c hc hroot
  · obtain ⟨d, hd, hkind, -, hpath, -⟩ := hus.placed u hu
    exact hp.apart c hc d hd hfile (hkind ▸ hdir) (hpath ▸ hpre)

theorem AtPlaces.fits (hp : Unambiguous places) (hus : AtPlaces early places us)
    (hts : AtPlaces early places ts) : Fits us ts := by
  refine ⟨hus.nodup, fun u hu t ht hpath => ?_, fun u hu hfile => ?_, fun t ht hfile => ?_⟩
  · obtain ⟨c, hc, -, hoffset, hcpath, hearly⟩ := hus.placed u hu
    obtain ⟨d, hd, -, hoffset', hdpath, hearly'⟩ := hts.placed t ht
    have hsame : c.1.byteOffset = d.1.byteOffset :=
      hp.same c hc d hd (hcpath.symm.trans (hpath.trans hdpath))
    rw [hoffset, hoffset', hearly, hearly', hsame]
    exact ⟨rfl, rfl⟩
  · obtain ⟨c, hc, hkind, -, hpath, -⟩ := hus.placed u hu
    rw [hpath]
    exact hts.not_inTree hp hc (hkind ▸ hfile)
  · obtain ⟨c, hc, hkind, -, hpath, -⟩ := hts.placed t ht
    rw [hpath]
    exact hus.not_inTree hp hc (hkind ▸ hfile)

variable {legal : List Char → Bool} {env : Env} {v : InodeVector} {entries : ℕ → List DirEntry}
  {pathOf : ℕ → Path} {front : List Ptr} {p r : Ptr} {x : View}

def placesOf (pathOf : ℕ → Path) (l : List View) : List (View × Path) :=
  l.map (fun x => (x, pathOf x.diNumber))

namespace CopiedVolume

variable {copy : Ptr} (h : CopiedVolume legal env v entries pathOf front p copy)
include h

/-- **Every place is one of the volume**, or that of the copy or below it. -/
theorem mem_places {c : View × Path}
    (hc : c ∈ placesOf pathOf ((withoutLast v).views env)
      ++ placesAgain entries pathOf ((withoutLast v).views env) (v.heap.view env p)) :
    (∃ r ∈ (withoutLast v).inodes, c = (v.heap.view env r, pathOf (v.heap.number r))) ∨
      ∃ r ∈ v.inodes, ∃ rest, c = (v.heap.view env r, copiedPath env v entries pathOf p copy r) ∧
        c.2 = copyPath pathOf (v.heap.view env p) ++ rest := by
  rcases List.mem_append.mp hc with hc | hc
  · obtain ⟨y, hy, rfl⟩ := List.mem_map.mp hc
    obtain ⟨r, hr, rfl⟩ := List.mem_map.mp hy
    exact Or.inl ⟨r, hr, rfl⟩
  · rw [← h.views_eq] at hc
    obtain ⟨r, hr, rfl⟩ := List.mem_map.mp hc
    rcases h.place_cases hr with rfl | ⟨hmem, ⟨rest, -, -, hmoved⟩ | hkept⟩
    · exact Or.inr ⟨r, hr, [], rfl, by rw [List.append_nil]; exact copiedPath_copy⟩
    · exact Or.inr ⟨r, hr, rest, rfl, hmoved⟩
    · exact Or.inl ⟨r, hmem, by rw [hkept]⟩

/-- A path of the volume is none above what lies at the copy, if a file has it. -/
theorem not_prefix_copy (hr : r ∈ (withoutLast v).inodes) (hfile : (v.heap.obj r).kind = .file)
    (rest : Path) :
    ¬ pathOf (v.heap.number r) <+: copyPath pathOf (v.heap.view env p) ++ rest := by
  intro hpre
  have hpast : ¬ copyPath pathOf (v.heap.view env p) <+: pathOf (v.heap.number r) := by
    rintro ⟨t, ht⟩
    exact h.not_below_copy hr ht.symm
  rcases List.prefix_or_prefix_of_prefix hpre (List.prefix_append _ rest) with hup | hdown
  · have hne : pathOf (v.heap.number r) ≠ [] := (h.trail₀ hr).ne_nil
    rcases h.copyPath_cases with ⟨hpath, -⟩ | ⟨d, hd, hdir, -, hpath, -⟩
    · rw [hpath] at hup
      rcases List.prefix_concat_iff.mp (show pathOf (v.heap.number r)
        <+: [] ++ [Nat.toDigits 10 (v.heap.number p)] from hup) with heq | hnil
      · exact hpast (by rw [hpath, heq]; exact List.prefix_rfl)
      · exact hne (List.prefix_nil.mp hnil)
    · rw [hpath] at hup
      rcases List.prefix_concat_iff.mp hup with heq | hup
      · exact hpast (by rw [hpath, heq])
      · exact h.orderly₀.not_prefix (by rw [h.recovered₀]; exact hr)
          (by rw [h.recovered₀]; exact hd)
          hdir hfile hup
  · exact hpast hdown

/-- **A run behind the last stage does not get in the way of one from the start.** -/
theorem unambiguous : Unambiguous (placesOf pathOf ((withoutLast v).views env)
    ++ placesAgain entries pathOf ((withoutLast v).views env) (v.heap.view env p)) := by
  refine ⟨fun c hc d hd hpath => ?_, fun c hc d hd hfile hdir hpre => ?_, fun c hc => ?_⟩
  · rcases h.mem_places hc with ⟨r, hr, rfl⟩ | ⟨r, hr, rest, rfl, hrest⟩ <;>
      rcases h.mem_places hd with ⟨s, hs, rfl⟩ | ⟨s, hs, rest', rfl, hrest'⟩
    · rw [h.eq_of_pathOf hr hs hpath]
    · exact absurd (hpath.trans hrest') (h.not_below_copy hr)
    · exact absurd (hpath.symm.trans hrest) (h.not_below_copy hs)
    · rw [h.injective hr hs hpath]
  · rcases h.mem_places hc with ⟨r, hr, rfl⟩ | ⟨r, hr, rest, rfl, hrest⟩ <;>
      rcases h.mem_places hd with ⟨s, hs, rfl⟩ | ⟨s, hs, rest', rfl, hrest'⟩
    · exact h.orderly₀.not_prefix (by rw [h.recovered₀]; exact hr) (by rw [h.recovered₀]; exact hs)
        hdir hfile hpre
    · rw [hrest'] at hpre
      exact h.not_prefix_copy hr hfile rest' hpre
    · rw [hrest] at hpre
      obtain ⟨t, ht⟩ := hpre
      rw [List.append_assoc] at ht
      exact h.not_below_copy hs ht.symm
    · exact h.orderly.not_prefix (by rw [h.recovered_eq]; exact hr)
        (by rw [h.recovered_eq]; exact hs) hdir hfile hpre
  · rcases h.mem_places hc with ⟨r, hr, rfl⟩ | ⟨r, hr, rest, rfl, -⟩
    · exact (h.trail₀ hr).ne_nil
    · exact (h.trail hr).ne_nil

end CopiedVolume

/-! ### What a run recovers -/

/-- A recovery of `v` puts its inodes at these places. -/
structure Placed (legal : List Char → Bool) (env : Env) (v : InodeVector)
    (names : Ptr → List InodeName) (placed : Ptr → Path) (places : List (View × Path)) : Prop where
  handed : Handed env v
  readmit : NothingToReadmit names v
  orderly : Orderly legal env names v placed
  all : recovered env names v = v.inodes
  names : ∃ fuel, ∀ n, fuel ≤ n → ∀ p ∈ v.inodes,
    (v.heap.obj p).extractInodeNames env n = some (names p)
  places : v.inodes.map (fun p => (v.heap.view env p, placed p)) = places

variable {names : Ptr → List InodeName} {placed : Ptr → Path} {o : PrioOptions}
  {clock : Ptr → Moment} {now : ℤ} {fs fs₀ fs₁ fs' : FileSystem} {torn : List Path}
  {trees : ℕ → FileInode.XtTree} {all : List (View × Path)}

theorem Placed.atPlaces (h : Placed legal env v names placed places) (o : PrioOptions)
    (hclock : ∀ p, (clock p).early = early (v.heap.obj p).byteOffset) :
    AtPlaces early places
      (turnsOf clock v.heap placed (ordered o placed (chosen env names o v placed))) := by
  have hperm := ordered_perm o placed (chosen env names o v placed)
  refine ⟨h.orderly.nodup_path h.handed.nodup hperm, fun u hu => ?_⟩
  obtain ⟨x, hx, rfl⟩ := List.mem_map.mp hu
  have hmem : x ∈ v.inodes := h.all ▸ (mem_chosen.mp (hperm.mem_iff.mp hx)).1
  have hplace : (v.heap.view env x, placed x) ∈ places := by
    rw [← h.places]
    exact List.mem_map_of_mem hmem
  exact ⟨_, hplace, rfl, rfl, rfl, hclock x⟩

/-- **A recovery that is killed** is one of the runs that `Kills` is about. -/
theorem Placed.kills (h : Placed legal env v names placed places) (hsub : places ⊆ all)
    (hdigits : ∀ n, legal (Nat.toDigits 10 n) = true)
    (hclock : ∀ p, (clock p).early = early (v.heap.obj p).byteOffset)
    (hkills : Kills (fun e _ => e.device = env.device) (AtPlaces early all) fs₀ torn fs)
    {q : Option Path}
    (hkill : ∃ m, ∀ n, m ≤ n → KilledRecovery env legal n o clock now v fs q fs') :
    Kills (fun e _ => e.device = env.device) (AtPlaces early all) fs₀ (torn ++ q.toList) fs' := by
  obtain ⟨m, hm⟩ := hkill
  obtain ⟨fuel, hfuel⟩ := KilledRecovery.killed hdigits h.handed.indexed h.handed.unnamed h.readmit
    h.orderly h.names o
  have hrun := hfuel _ (Nat.le_max_left fuel m) _ _ _ _ _ (hm _ (Nat.le_max_right fuel m))
  rcases hrun with ⟨rfl, rfl⟩ | hrun
  · rw [Option.toList_none, List.append_nil]
    exact hkills
  · exact hkills.killed rfl ((h.atPlaces o hclock).mono hsub) hrun

/-- `fs'` has at these places what `fs₁` has, but for files of `fs` in the middle of which a run was
killed, and that are skipped. -/
structure CatchesUp (env : Env) (o : PrioOptions) (places : List (View × Path)) (torn : List Path)
    (fs fs₁ fs' : FileSystem) : Prop where
  dirs : ∀ c ∈ places, c.1.kind = .dir → found o.exclude c.2 = false → fs'.IsDir c.2
  files : ∀ c ∈ places, c.1.kind = .file → found o.exclude c.2 = false →
    (fs'.file c.2).map OutFile.content = (fs₁.file c.2).map OutFile.content ∨
      c.2 ∈ torn ∧ fs'.file c.2 = fs.file c.2 ∧
        FileInode.skips env .quiet c.1.byteOffset (fs.file c.2) ≠ .ret false

theorem Placed.exists_fuel_recoverTree (h : Placed legal env v names placed places)
    (hdigits : ∀ n, legal (Nat.toDigits 10 n) = true) (o : PrioOptions) :
    ∃ fuel, ∀ n, fuel ≤ n → ∀ clock now fs b,
      recoverOn env legal n o clock now v fs b = recoverTree env n now
        (turnsOf clock v.heap placed (ordered o placed (chosen env names o v placed))) fs b := by
  obtain ⟨k, hloops⟩ := exists_fuel_recover hdigits h.handed.indexed h.handed.unnamed h.orderly o
  obtain ⟨m, hnames⟩ := h.names
  refine ⟨max k m, fun n hn clock now fs b => ?_⟩
  rw [recoverOn_eq h.readmit h.handed.indexed (hnames n (by omega)), hloops n (by omega)]

theorem Placed.exists_alike (h : Placed legal env v names placed places)
    (hslots : ∀ x ∈ v.views env, env.device.Slot x.byteOffset)
    (hheld : FilesHeld env (v.views env) trees) (o : PrioOptions) (clock : Ptr → Moment) :
    ∃ content : Turn → SparseFile, ∀ t ∈ turnsOf clock v.heap placed
        (ordered o placed (chosen env names o v placed)), t.ino.kind = .file →
      FileInode.Alike (fun e _ => e.device = env.device) t.early t.ino.byteOffset (content t) := by
  have hfile : ∀ t : Turn, ∃ content, t ∈ turnsOf clock v.heap placed
        (ordered o placed (chosen env names o v placed)) → t.ino.kind = .file →
      FileInode.Alike (fun e _ => e.device = env.device) t.early t.ino.byteOffset content := by
    intro t
    by_cases ht : (t ∈ turnsOf clock v.heap placed
        (ordered o placed (chosen env names o v placed))) ∧ t.ino.kind = .file
    · obtain ⟨hmem, hkind⟩ := ht
      obtain ⟨x, hx, rfl⟩ := List.mem_map.mp hmem
      have hx' : x ∈ v.inodes :=
        h.all ▸ (mem_chosen.mp ((ordered_perm o placed _).mem_iff.mp hx)).1
      have hview : v.heap.view env x ∈ v.views env := List.mem_map_of_mem hx'
      obtain ⟨content, ha⟩ := FileInode.exists_alike_device (hslots _ hview)
        (getDinode_of_views hslots hx') (hheld _ hview hkind) (clock x).early
      exact ⟨content, fun _ _ => ha⟩
    · exact ⟨.empty, fun hmem hkind => absurd ⟨hmem, hkind⟩ ht⟩
  choose content hcontent using hfile
  exact ⟨content, hcontent⟩

/-- **A recovery after others that were killed** catches up with one that is the first. -/
theorem Placed.exists_recoverOn (h : Placed legal env v names placed places)
    (hsub : places ⊆ all) (hall : Unambiguous all)
    (hdigits : ∀ n, legal (Nat.toDigits 10 n) = true)
    (hclock : ∀ p, (clock p).early = early (v.heap.obj p).byteOffset)
    (hslots : ∀ x ∈ v.views env, env.device.Slot x.byteOffset)
    (hheld : FilesHeld env (v.views env) trees) (hbelow : ExcludesBelow o)
    (hempty : ∀ q, fs₀.file q = none)
    (hkills : Kills (fun e _ => e.device = env.device) (AtPlaces early all) fs₀ torn fs)
    (now : ℤ) (b : Buffer) :
    ∃ fs₁ fs', (∃ fuel, ∀ n, fuel ≤ n →
        recoverOn env legal n o clock now v fs₀ b = some fs₁ ∧
        recoverOn env legal n o clock now v fs b = some fs') ∧
      RestoresAt env o clock places trees fs₁ ∧ CatchesUp env o places torn fs fs₁ fs' := by
  have hperm := ordered_perm o placed (chosen env names o v placed)
  have hlayout : Layout (turnsOf clock v.heap placed
      (ordered o placed (chosen env names o v placed))) :=
    h.orderly.layout hbelow h.handed.nodup hperm
  have hat := h.atPlaces o hclock
  have hkills' := hkills.mono (fun us hus => hus.fits hall (hat.mono hsub))
  obtain ⟨content, halike⟩ := h.exists_alike hslots hheld o clock
  obtain ⟨k, hfirst⟩ := Jfsrec.exists_fuel_recoverOn h.handed h.readmit h.orderly h.all h.names
    hslots hheld hdigits hbelow hempty clock now b
  obtain ⟨m, hloops⟩ := h.exists_fuel_recoverTree hdigits o
  obtain ⟨fs₁, hrun₁, hrestores⟩ := hfirst _ (Nat.le_max_left k m)
  rw [hloops _ (Nat.le_max_right k m)] at hrun₁
  rw [h.places] at hrestores
  obtain ⟨fs', hrun, hdirs, hfiles⟩ := hkills'.next hlayout halike rfl hrun₁ rfl now b
  refine ⟨fs₁, fs', ⟨max k m, fun n hn => ?_⟩, hrestores, fun c hc hkind hex => ?_,
    fun c hc hkind hex => ?_⟩
  · rw [hloops n (by omega), hloops n (by omega)]
    exact ⟨recoverTree_mono hn hrun₁, recoverTree_mono hn hrun⟩
  · rw [← h.places] at hc
    obtain ⟨x, hx, rfl⟩ := List.mem_map.mp hc
    have hxo := hperm.mem_iff.mpr (mem_chosen.mpr ⟨h.all.symm ▸ hx, hex⟩)
    exact hdirs _ (inTree_turnsOf.mpr (Or.inr ⟨x, hxo, hkind, List.prefix_rfl⟩))
  · rw [← h.places] at hc
    obtain ⟨x, hx, rfl⟩ := List.mem_map.mp hc
    have hxo := hperm.mem_iff.mpr (mem_chosen.mpr ⟨h.all.symm ▸ hx, hex⟩)
    exact hfiles _ (List.mem_map_of_mem hxo) hkind

/-! ### Runs of the program -/

variable {dev : Device} {files files' : Files} {ok : Bool} {s : Scanner} {l : List View}
  {stage : Stage}

theorem Behind.files_scanFrom (h : Behind env l stage s) (hstamps : StampsSettled l)
    (hstage : stage ≠ .postRemoveDupes) :
    StageFiles l .postRemoveDupes (s.scanFrom env stage).files ∧
      ∃ t ∈ Scanner.passedFrom env stage s, (s.scanFrom env stage).files = t.files := by
  cases stage with
  | postScan =>
    exact ⟨(h.extentscan hstamps).2.unallocated.2.dupes.1, _,
      List.mem_cons_of_mem _ (List.mem_cons_of_mem _ List.mem_cons_self), rfl⟩
  | postExtentscan =>
    exact ⟨h.unallocated.2.dupes.1, _, List.mem_cons_of_mem _ List.mem_cons_self, rfl⟩
  | postRemoveUnallocated => exact ⟨h.dupes.1, _, List.mem_cons_self, rfl⟩
  | postRemoveDupes => exact absurd rfl hstage

/-- **A scan that comes to its end leaves the files of the last stage.** -/
theorem killedRuns_of_scan (hbig : chunkBytes dev ≤ dev.getSizeBytes)
    (hkept : Stage.postRemoveDupes.left dev.found ≠ []) (hstamps : StampsSettled dev.found)
    (hkills : Scanner.KilledRuns dev files) (henv : env.device = dev)
    (hscan : Scanner.scan env ⟨start ok, files⟩ = (.ok (), s)) :
    Scanner.KilledRuns dev s.files ∧ Scanner.latest s.files = some .postRemoveDupes := by
  subst henv
  have hpass : ∀ t ∈ Scanner.passed env ⟨start ok, files⟩,
      Scanner.KilledRuns env.device t.files :=
    fun t ht => hkills.tail ⟨env, ok, rfl, t, ht, rfl⟩
  rw [Scanner.passed] at hpass
  rcases holdsSome_of_killedRuns hbig hkept hstamps hkills with rfl | ⟨stage, hholds⟩
  · obtain ⟨s₀, hfirst, -, hbehind⟩ := behind_doScan env ok hbig
    rw [Scanner.scan_of_doScan (s := ⟨start ok, fun _ => none⟩) rfl hfirst] at hscan
    obtain rfl := (Prod.mk.inj hscan).2
    obtain ⟨hlast, t, ht, hfiles⟩ := hbehind.files_scanFrom hstamps (by decide)
    have hnone : Scanner.latest (fun _ => none) = none := rfl
    simp only [hnone, hfirst] at hpass
    rw [hfiles]
    exact ⟨hpass t (List.mem_cons_of_mem _ ht), hfiles ▸ hlast.latest⟩
  · obtain ⟨v, m, x, hload, hbehind, -⟩ :=
      hholds.load onDevice_found (left_ne_nil hkept stage) ok
    rw [Scanner.scan_of_load hholds.latest hload] at hscan
    obtain rfl := (Prod.mk.inj hscan).2
    by_cases hstage : stage = .postRemoveDupes
    · subst hstage
      exact ⟨hkills, hholds.latest⟩
    · obtain ⟨hlast, t, ht, hfiles⟩ := hbehind.files_scanFrom hstamps hstage
      simp only [hholds.latest, hload] at hpass
      rw [hfiles]
      exact ⟨hpass t ht, hfiles ▸ hlast.latest⟩

/-- The program is started and killed any number of times, between two stages of the scan or in the
recovery.  This is what it leaves in the progress directory and in the output directory, and the
files in the middle of which it was killed. -/
inductive MainKills (dev : Device) (legal : List Char → Bool) (early : ℕ → ℕ)
    (fs₀ : FileSystem) : List Path → Files → FileSystem → Prop
  | start : MainKills dev legal early fs₀ [] (fun _ => none) fs₀
  | inScan {torn : List Path} {files files' : Files} {fs : FileSystem}
      (h : MainKills dev legal early fs₀ torn files fs)
      (hkill : Scanner.Killed dev files files') : MainKills dev legal early fs₀ torn files' fs
  | inRecovery {torn : List Path} {files : Files} {fs fs' : FileSystem} {env : Env} {ok : Bool}
      {s : Scanner} {o : PrioOptions} {clock : Ptr → Moment} {now : ℤ} {q : Option Path}
      (h : MainKills dev legal early fs₀ torn files fs) (henv : env.device = dev)
      (hscan : Scanner.scan env ⟨start ok, files⟩ = (.ok (), s))
      (hclock : ∀ p, (clock p).early = early (s.inovec.heap.obj p).byteOffset)
      (hkill : ∃ m, ∀ n, m ≤ n → KilledRecovery env legal n o clock now s.inovec fs q fs') :
      MainKills dev legal early fs₀ (torn ++ q.toList) s.files fs'

theorem MainKills.ended (h : MainKills dev legal early fs₀ torn files fs) (henv : env.device = dev)
    (hclock : ∀ p, (clock p).early = early
      ((Scanner.scan env ⟨InodeVector.start ok, files⟩).2.inovec.heap.obj p).byteOffset)
    {b : Buffer}
    (hrun : ∃ m, ∀ n, m ≤ n → main env legal n o clock now ok files fs b = some (files', fs')) :
    MainKills dev legal early fs₀ torn files' fs' := by
  obtain ⟨m, hm⟩ := hrun
  rcases hscan : Scanner.scan env ⟨InodeVector.start ok, files⟩ with ⟨e | u, s⟩
  · have hnone := hm m (Nat.le_refl m)
    rw [main, hscan] at hnone
    cases hnone
  · have hboth : ∀ n, m ≤ n → s.files = files' ∧
        recoverOn env legal n o clock now s.inovec fs b = some fs' := by
      intro n hn
      have hrun := hm n hn
      rw [main, hscan] at hrun
      obtain ⟨fs₁, hrecover, hpair⟩ := Option.map_eq_some_iff.mp hrun
      obtain ⟨hfiles, rfl⟩ := Prod.mk.inj hpair
      exact ⟨hfiles, hrecover⟩
    obtain rfl := (hboth m (Nat.le_refl m)).1
    rw [hscan] at hclock
    have hnext := h.inRecovery henv hscan hclock
      ⟨m, fun n hn => killedRecovery_of_recoverOn (hboth n hn).2⟩
    rw [Option.toList_none, List.append_nil] at hnext
    exact hnext

def placesNext (entries : ℕ → List DirEntry) (pathOf : ℕ → Path) (l : List View) (x : View)
    (files : Files) : List (View × Path) :=
  if Scanner.latest files = some .postRemoveDupes then placesAgain entries pathOf l x
  else placesOf pathOf l

theorem placesNext_subset : placesNext entries pathOf l x files
    ⊆ placesOf pathOf l ++ placesAgain entries pathOf l x := by
  rw [placesNext]
  split_ifs
  · exact List.subset_append_right _ _
  · exact List.subset_append_left _ _

section Device

variable (hbig : chunkBytes dev ≤ dev.getSizeBytes) (hstamps : StampsSettled dev.found)
  (henv : env.device = dev) (hdigits : ∀ n, legal (Nat.toDigits 10 n) = true)
  (hroot : legal "original_root".toList = true)
  (hvol : Volume legal dev (Stage.postRemoveDupes.left dev.found) entries pathOf)
  (hlast : (Stage.postRemoveDupes.left dev.found).getLast? = some x)
  (hroom : RoomForCopy (Stage.postRemoveDupes.left dev.found) entries pathOf x)
include hbig hstamps henv hdigits hroot hvol hlast hroom

/-- **What a run recovers** after others that were killed. -/
theorem exists_placed (hkills : Scanner.KilledRuns dev files) (ok : Bool) :
    ∃ s names placed, Scanner.scan env ⟨start ok, files⟩ = (.ok (), s) ∧
      Placed legal env s.inovec names placed
        (placesNext entries pathOf (Stage.postRemoveDupes.left dev.found) x files) ∧
      ∀ y ∈ s.inovec.views env, y ∈ Stage.postRemoveDupes.left dev.found := by
  by_cases hlatest : Scanner.latest files = some .postRemoveDupes
  · obtain ⟨v, front, p, q, hscan, hhanded, hcopied, rfl, hleft⟩ := exists_copiedVolume hbig hstamps
      hkills hlatest henv hdigits hroot hvol hlast hroom ok
    rw [placesNext, if_pos hlatest, ← hleft, ← hcopied.views_eq]
    exact ⟨_, _, _, hscan, ⟨hhanded, hcopied.nothingToReadmit, hcopied.orderly,
      hcopied.recovered_eq, hcopied.exists_fuel_names, rfl⟩, fun y hy => hcopied.mem_views.mp hy⟩
  · have hkept : Stage.postRemoveDupes.left dev.found ≠ [] := by
      obtain ⟨r, hr, -⟩ := hvol.root
      exact List.ne_nil_of_mem hr
    obtain ⟨s, hscan, hviews, -⟩ := scan_of_killedRuns hbig hkept hstamps hkills henv ok
    have hhanded := handed_scan hbig hkept hstamps hkills henv ok
    rw [hscan] at hhanded
    rw [if_neg hlatest, List.append_nil] at hviews
    subst henv
    have hnodup : (s.inovec.inodes.map s.inovec.heap.number).Nodup := by
      have h := nodup_left env.device.found
      rw [← hviews, views, List.map_map] at h
      exact h
    rw [placesNext, if_neg hlatest, ← hviews]
    rw [← hviews] at hvol
    have ho := hvol.orderly hnodup hdigits hroot hhanded.indexed hhanded.unnamed
    refine ⟨s, _, _, hscan, ⟨hhanded, hvol.nothingToReadmit, ho,
      hvol.recovered_eq hhanded.indexed hhanded.unnamed, hvol.exists_fuel_names, ?_⟩,
      fun y hy => hy⟩
    rw [placesOf, views, List.map_map]
    rfl

theorem unambiguous_places : Unambiguous (placesOf pathOf (Stage.postRemoveDupes.left dev.found)
    ++ placesAgain entries pathOf (Stage.postRemoveDupes.left dev.found) x) := by
  subst henv
  obtain ⟨files, hkill, hstage⟩ := exists_killed hbig hstamps
  obtain ⟨v, front, p, q, -, -, hcopied, rfl, hleft⟩ := exists_copiedVolume hbig hstamps
    (.single hkill) hstage.latest rfl hdigits hroot hvol hlast hroom true
  rw [← hleft]
  exact hcopied.unambiguous

omit henv in
/-- **What any number of runs leave** that were killed. -/
theorem MainKills.kills (h : MainKills dev legal early fs₀ torn files fs) :
    Scanner.KilledRuns dev files ∧ Kills (fun e _ => e.device = dev)
      (AtPlaces early (placesOf pathOf (Stage.postRemoveDupes.left dev.found)
        ++ placesAgain entries pathOf (Stage.postRemoveDupes.left dev.found) x)) fs₀ torn fs := by
  induction h with
  | start => exact ⟨.refl, .start⟩
  | inScan _ hkill ih => exact ⟨ih.1.tail hkill, ih.2⟩
  | @inRecovery torn files fs fs' e ok s _ _ _ _ h henv hscan hclock hkill ih =>
    obtain ⟨hruns, hkills⟩ := ih
    have hkept : Stage.postRemoveDupes.left dev.found ≠ [] := by
      obtain ⟨r, hr, -⟩ := hvol.root
      exact List.ne_nil_of_mem hr
    obtain ⟨s', names, placed, hscan', hplaced, -⟩ := exists_placed hbig hstamps henv hdigits hroot
      hvol hlast hroom hruns ok
    obtain rfl : s' = s := (Prod.mk.inj (hscan'.symm.trans hscan)).2
    refine ⟨(killedRuns_of_scan hbig hkept hstamps hruns henv hscan).1, ?_⟩
    subst henv
    exact hplaced.kills placesNext_subset hdigits hclock hkills hkill

/-- **The program may be killed between two stages, and at any time in the recovery.**  The next run
goes through, and leaves every directory, and every file with the content that it would have if
nothing had been restored before, but for files in the middle of which the program was killed, and
that it skips. -/
theorem main_restores_after_kills (hkills : MainKills dev legal early fs₀ torn files fs)
    (hheld : FilesHeld env (Stage.postRemoveDupes.left dev.found) trees)
    (hbelow : ExcludesBelow o) (hempty : ∀ q, fs₀.file q = none) (clock : Ptr → Moment) (now : ℤ)
    (ok : Bool) (b : Buffer) (hclock : ∀ p, (clock p).early = early
      ((Scanner.scan env ⟨start ok, files⟩).2.inovec.heap.obj p).byteOffset) :
    let places := placesNext entries pathOf (Stage.postRemoveDupes.left dev.found) x files
    ∃ files' fs₁ fs', (∃ fuel, ∀ n, fuel ≤ n →
        main env legal n o clock now ok files fs₀ b = some (files', fs₁) ∧
        main env legal n o clock now ok files fs b = some (files', fs')) ∧
      RestoresAt env o clock places trees fs₁ ∧ CatchesUp env o places torn fs fs₁ fs' := by
  have hall := unambiguous_places hbig hstamps henv hdigits hroot hvol hlast hroom
  obtain ⟨hruns, hk⟩ := hkills.kills hbig hstamps hdigits hroot hvol hlast hroom
  obtain ⟨s, names, placed, hscan, hplaced, hviews⟩ := exists_placed hbig hstamps henv hdigits hroot
    hvol hlast hroom hruns ok
  rw [hscan] at hclock
  subst henv
  have hslots : ∀ y ∈ s.inovec.views env, env.device.Slot y.byteOffset :=
    fun y hy => (onDevice_found y (left_subset _ _ (hviews y hy))).slot
  obtain ⟨fs₁, fs', ⟨fuel, hfuel⟩, hrestores, hcatches⟩ := hplaced.exists_recoverOn
    placesNext_subset hall hdigits hclock hslots (fun y hy => hheld y (hviews y hy)) hbelow hempty
    hk now b
  refine ⟨s.files, fs₁, fs', ⟨fuel, fun n hn => ?_⟩, hrestores, hcatches⟩
  obtain ⟨hrun₁, hrun⟩ := hfuel n hn
  rw [main, main, hscan]
  dsimp only
  rw [hrun₁, hrun]
  exact ⟨rfl, rfl⟩

end Device

/-! ### An example -/

/-- The first run comes to its end.  The second one leaves the file as it is, and makes it once more
by its number. -/
theorem main_restores_after_kills_smallVolume : ∃ files fs,
    MainKills smallVolume.device (fun _ => true) (fun _ => 100) nothing [] files fs ∧
      Scanner.latest files = some .postRemoveDupes ∧
      ∃ files' fs', (∃ fuel, ∀ n, fuel ≤ n →
          main smallVolume (fun _ => true) n ⟨none, none, none⟩ (fun _ => ⟨1, 2, 100⟩) 2 true
            files fs (fun _ => 5) = some (files', fs')) ∧
        ∀ path ∈ [["original_root".toList, ['a']], [['4']]],
          ∃ f, fs'.file path = some f ∧ f.content.byte 1024 = 8 := by
  have hleft := left_smallVolume
  have hvol := volume_smallVolume
  have hheld := filesHeld_smallVolume
  have hroom := roomForCopy_smallVolume
  have hstamps := stampsSettled_smallVolume
  have hbig : chunkBytes smallVolume.device ≤ smallVolume.device.getSizeBytes := by decide
  have hempty : ∀ q, nothing.file q = none := fun _ => rfl
  have hbelow : ExcludesBelow ⟨none, none, none⟩ := fun _ _ h => Bool.noConfusion h
  rw [← hleft] at hvol hheld hroom
  obtain ⟨s, hscan, -⟩ := scan_of_killedRuns hbig (hleft ▸ List.cons_ne_nil _ _) hstamps
    (.refl : Scanner.KilledRuns smallVolume.device _) rfl true
  have hstart : MainKills smallVolume.device (fun _ => true) (fun _ => 100) nothing []
      (fun _ => none) nothing := .start
  obtain ⟨files, _, fs, ⟨fuel, hfuel⟩, -, -⟩ := main_restores_after_kills hbig hstamps rfl
    (fun _ => rfl) rfl hvol last_smallVolume hroom hstart hheld hbelow hempty
    (fun _ => ⟨1, 1, 100⟩) 1 true (fun _ => 9) (fun _ => rfl)
  have hkills := hstart.ended rfl (fun _ => rfl) ⟨fuel, fun n hn => (hfuel n hn).2⟩
  have hlatest : Scanner.latest files = some .postRemoveDupes := by
    have hrun := (hfuel fuel (Nat.le_refl fuel)).2
    rw [main, hscan] at hrun
    obtain ⟨_, -, hpair⟩ := Option.map_eq_some_iff.mp hrun
    rw [← (Prod.mk.inj hpair).1]
    exact (killedRuns_of_scan hbig (hleft ▸ List.cons_ne_nil _ _) hstamps .refl rfl hscan).2
  obtain ⟨files', fs₁, fs', ⟨fuel', hfuel'⟩, hrestores, hcatches⟩ := main_restores_after_kills hbig
    hstamps rfl (fun _ => rfl) rfl hvol last_smallVolume hroom hkills hheld hbelow hempty
    (fun _ => ⟨1, 2, 100⟩) 2 true (fun _ => 5) (fun _ => rfl)
  refine ⟨files, fs, hkills, hlatest, files', fs', ⟨fuel', fun n hn => (hfuel' n hn).2⟩,
    fun path hpath => ?_⟩
  rw [placesNext, if_pos hlatest, hleft] at hrestores hcatches
  have hplace := mem_placesAgain_smallVolume hpath
  obtain ⟨f, hf, hfile⟩ := hrestores.files _ hplace rfl rfl
  rcases hcatches.files _ hplace rfl rfl with hcontent | ⟨htorn, -⟩
  · rw [hf] at hcontent
    obtain ⟨g, hg, hsame⟩ := Option.map_eq_some_iff.mp hcontent
    refine ⟨g, hg, ?_⟩
    rw [hsame]
    obtain ⟨_, hbytes⟩ := hfile.extents hasExtents_smallFile
    exact hbytes.bytes 1024 (Or.inl diSize_smallFile) _ (List.mem_pair.mpr (Or.inr rfl))
      (by decide)
  · cases htorn

end Jfsrec
