import Jfsrec.Fixpoint
import Jfsrec.ScanRun

/-!
# A single owner

Scanning moves an inode from one list to the other and keeps one owner for it.
Sane-by-association does not: `get_invalidated_by_di_number` leaves the inode it
returns where it is, and `add_inode` enters it into the other list as well.

`singleOwner_iff` says for which scanned inodes this happens.  It does unless
everything that the valid inodes ask for is valid already or does not exist.
-/

namespace Jfsrec

open Lib InodeVector

namespace Recoverer

variable {env : Env} {names : Ptr → List InodeName} {v w u : InodeVector}

/-! ### The states of a run -/

/-- The states `find_directory_parents` and then `find_file_parents_and_names` pass
through: the loop heads of the first, those of the second with the states
between two names, and those of the loop over bad names. -/
inductive Reached (env : Env) (names : Ptr → List InodeName) (v : InodeVector) : InodeVector → Prop
  | directories {i : ℕ} {w : InodeVector}
      (hw : ForSteps (fun v => v.inodes.length) (directoryParent env) (0, v) (i, w)) :
      Reached env names v w
  | entries {i : ℕ} {w u : InodeVector} (es : List InodeName)
      (hw : findDirectoryParents env v = some w)
      (hu : ForSteps (fun v => v.inodes.length) (nameEntries env names) (0, w) (i, u))
      (hi : i < u.inodes.length) (hes : es <+: names (u.inodes.getD i NULL)) :
      Reached env names v (es.foldl (nameEntry env (u.inodes.getD i NULL)) u)
  | badNames {i : ℕ} {w u : InodeVector} (ps : List Ptr)
      (hw : findDirectoryParents env v = some w)
      (hu : ForSteps (fun v => v.inodes.length) (nameEntries env names) (0, w) (i, u))
      (hi : u.inodes.length ≤ i) (hps : ps <+: u.inodes) :
      Reached env names v { u with heap := ps.foldl replaceName u.heap }
  | done {w u : InodeVector} (hw : findDirectoryParents env v = some w)
      (hu : findFileParentsAndNames env names w = some u) : Reached env names v u

/-- Everything the valid inodes ask for is valid, or there is no such inode. -/
def NothingToReadmit (names : Ptr → List InodeName) (v : InodeVector) : Prop :=
  ∀ c ∈ v.inodes, ∀ d ∈ dotdot v.heap c ++ listed names c,
    d ∈ v.inodes.map v.heap.number ∨ d ∉ v.invalidatedInodes.map v.heap.number

/-! ### Where nothing is readmitted -/

/-- A state of the recovery with the inodes of its start. -/
structure Unchanged (env : Env) (v w : InodeVector) : Prop extends Recovering env v w where
  inodes : w.inodes = v.inodes

theorem Unchanged.singleOwner (h : Unchanged env v w) (hv : v.SingleOwner) : w.SingleOwner := by
  rw [SingleOwner, owned, h.inodes, h.invalidated]
  exact hv

theorem Unchanged.of_frame (h : Unchanged env v w) {k : Heap} (a : Heap.Frame env w.heap k) :
    Unchanged env v { w with heap := k } :=
  ⟨h.toRecovering.of_frame a, h.inodes⟩

theorem answered_of_nothingToReadmit (hn : NothingToReadmit names v) {c : Ptr} (hc : c ∈ v.inodes)
    {d : ℕ} (hd : d ∈ dotdot v.heap c ++ listed names c) :
    Answered v.heap.number (v.store env) v.inodes d :=
  (hn c hc d hd).imp id oldest_eq_none.mpr

theorem Unchanged.directoryParent (hn : NothingToReadmit names v) (h : Unchanged env v w) {i : ℕ}
    (hi : i < w.inodes.length) : Unchanged env v (directoryParent env i w) := by
  obtain ⟨hrec, hin⟩ := directoryParent_step h.toRecovering hi
  refine ⟨hrec, ?_⟩
  have hi' : i < v.inodes.length := by rw [← h.inodes]; exact hi
  rw [hin, h.inodes, grow_of_get (List.getElem?_eq_getElem hi')]
  exact requests_of_answered (fun d hd => answered_of_nothingToReadmit hn (List.getElem_mem hi')
    (List.mem_append_left _ hd))

theorem Unchanged.entries (hn : NothingToReadmit names v) (h : Unchanged env v w) {i : ℕ}
    (hi : i < w.inodes.length) {es : List InodeName} (hes : es ⊆ names (w.inodes.getD i NULL)) :
    Unchanged env v (es.foldl (nameEntry env (w.inodes.getD i NULL)) w) := by
  obtain ⟨u, hu, hrec, hin, _⟩ := nameEntries_fold es (w.inodes.getD i NULL) h.toRecovering
  have hdir : w.inodes.getD i NULL ∈ v.inodes := by
    rw [← h.inodes, List.getD_eq_getElem?_getD, List.getElem?_eq_getElem hi]
    exact List.getElem_mem hi
  rw [hu]
  refine ⟨hrec, ?_⟩
  rw [hin, h.inodes]
  refine requests_of_answered (fun d hd => answered_of_nothingToReadmit hn hdir ?_)
  exact List.mem_append_right _ (List.map_subset _ hes hd)

theorem Unchanged.findDirectoryParents (hn : NothingToReadmit names v) (hv : v.Indexed env)
    (hw : findDirectoryParents env v = some w) : Unchanged env v w := by
  obtain ⟨j, hsteps, _⟩ := forSteps_of_forSize hw
  exact hsteps.inv (I := fun _ w => Unchanged env v w) (fun i w h hi => h.directoryParent hn hi)
    ⟨.refl hv, rfl⟩

theorem Unchanged.nameLoop (hn : NothingToReadmit names v) (hw : Unchanged env v w) {i : ℕ}
    (hu : ForSteps (fun v => v.inodes.length) (nameEntries env names) (0, w) (i, u)) :
    Unchanged env v u :=
  hu.inv (I := fun _ w => Unchanged env v w)
    (fun _ _ h hi => h.entries hn hi (List.Subset.refl _)) hw

theorem unchanged_of_reached (hn : NothingToReadmit names v) (hv : v.Indexed env)
    (h : Reached env names v w) : Unchanged env v w := by
  cases h with
  | directories hw =>
    exact hw.inv (I := fun _ w => Unchanged env v w) (fun i w h hi => h.directoryParent hn hi)
      ⟨.refl hv, rfl⟩
  | entries es hw hu hi hes =>
    exact ((Unchanged.findDirectoryParents hn hv hw).nameLoop hn hu).entries hn hi hes.subset
  | badNames ps hw hu hi hps =>
    exact ((Unchanged.findDirectoryParents hn hv hw).nameLoop hn hu).of_frame
      (foldl_replaceName env ps _).1
  | done hw hu =>
    obtain ⟨u, hloop, rfl⟩ := Option.map_eq_some_iff.mp hu
    obtain ⟨j, hsteps, _⟩ := forSteps_of_forSize hloop
    have h := ((Unchanged.findDirectoryParents hn hv hw).nameLoop hn hsteps).of_frame
      (foldl_replaceName env u.inodes u.heap).1
    obtain ⟨hrec, hin, _⟩ := originalRoot_spec h.indexed
    exact ⟨h.toRecovering.trans hrec, hin.trans h.inodes⟩

/-! ### Where something is -/

theorem not_singleOwner_of_mem {p : Ptr} (hp : p ∈ w.inodes) (hp' : p ∈ w.invalidatedInodes)
    (hne : p ≠ NULL) : ¬ w.SingleOwner := by
  intro h
  rw [SingleOwner, owned, List.filter_append, List.nodup_append] at h
  refine h.2.2 p ?_ p ?_ rfl
  · exact List.mem_filter.mpr ⟨hp, decide_eq_true hne⟩
  · exact List.mem_filter.mpr ⟨hp', decide_eq_true hne⟩

theorem not_singleOwner_of_known (hv : v.Indexed env) (hw : Recovering env v w)
    (hg : Grown v.heap.number (v.store env) v.inodes w.inodes) {d : ℕ}
    (hd : d ∉ v.inodes.map v.heap.number) (hd' : d ∈ w.inodes.map v.heap.number) :
    ¬ w.SingleOwner := by
  obtain ⟨p, hp, hnum⟩ := List.mem_map.mp hd'
  rcases hg.mem hp with hold | ⟨_, hstore⟩
  · refine absurd ?_ hd
    rw [← hnum]
    exact List.mem_map_of_mem hold
  · have hmem := store_mem _ p hstore
    refine not_singleOwner_of_mem hp ?_ ?_
    · rw [hw.invalidated]
      exact hmem
    · rintro rfl
      exact hv.invalidated hmem

/-- **One owner in every state exactly if nothing is readmitted.** -/
theorem reached_singleOwner_iff (names : Ptr → List InodeName) (hv : v.Indexed env)
    (hsingle : v.SingleOwner) :
    (∀ w, Reached env names v w → w.SingleOwner) ↔ NothingToReadmit names v := by
  constructor
  · intro hall c hc d hd
    by_contra hcon
    rw [not_or, not_not] at hcon
    obtain ⟨hun, hinv⟩ := hcon
    obtain ⟨w, hw, hwrec, hwin⟩ := findDirectoryParents_spec hv
    have hfirst := parentClosure_explored env v
    rw [← hwin] at hfirst
    have hknown : ∀ {l : List Ptr}, Answered v.heap.number (v.store env) l d →
        d ∈ l.map v.heap.number := fun h => h.resolve_right (fun hn => oldest_eq_none.mp hn hinv)
    rcases List.mem_append.mp hd with hd | hd
    · obtain ⟨j, hsteps, _⟩ := forSteps_of_forSize hw
      refine not_singleOwner_of_known hv hwrec hfirst.grown hun ?_ (hall w (.directories hsteps))
      exact hknown (hfirst.answered_all c (hfirst.grown.subset hc) d hd)
    · obtain ⟨u, hu, hurec, huin, _⟩ := findFileParentsAndNames_spec names hwrec.indexed
      have hsecond := nameClosure_explored env names w
      rw [← huin, hwrec.frame.number, hwrec.store] at hsecond
      refine not_singleOwner_of_known hv (hwrec.trans hurec) (hfirst.grown.trans hsecond.grown) hun
        ?_ (hall u (.done hw hu))
      exact hknown (hsecond.answered_all c (hsecond.grown.subset (hfirst.grown.subset hc)) d hd)
  · exact fun hn w hw => (unchanged_of_reached hn hv hw).singleOwner hsingle

/-! ### Scans -/

/-- The states of a run: of a scan into an empty vector, and of the recovery of what
it left. -/
inductive Run (env : Env) (names : Ptr → List InodeName) (ok : Bool) (v : InodeVector) :
    InodeVector → Prop
  | scanning {w : InodeVector} (hw : ScanSteps env (start ok) w) : Run env names ok v w
  | recovering {w : InodeVector} (hw : Reached env names v w) : Run env names ok v w

/-- **Every run has one owner in every state exactly if what its scan left needs
nothing readmitted.** -/
theorem singleOwner_iff (names : Ptr → List InodeName) {ok : Bool} {files : Files} {s : Scanner}
    (hscan : Scanner.scan env ⟨start ok, files⟩ = (.ok (), s))
    (hnull : NULL ∉ s.inovec.inodes ++ s.inovec.invalidatedInodes) :
    ScanSteps env (start ok) s.inovec ∧
      ((∀ w, Run env names ok s.inovec w → w.SingleOwner) ↔ NothingToReadmit names s.inovec) := by
  have hstart := sound_start env ok
  have hsteps := Scanner.scanSteps_scan (s := ⟨start ok, files⟩) hstart
  rw [hscan] at hsteps
  have hsound := hstart.steps hsteps
  have hindexed := hsound.indexed (Scanner.scan_ok hscan) hnull
  refine ⟨hsteps, ?_⟩
  rw [← reached_singleOwner_iff names hindexed hsound.single]
  constructor
  · exact fun h w hw => h w (.recovering hw)
  · intro h w hw
    cases hw with
    | scanning hw => exact (hstart.steps hw).single
    | recovering hw => exact h w hw

/-- The files of a scan that kept both directories. -/
def bothFiles : Files :=
  Function.update (fun _ => none) .postRemoveDupes (some ['0', '\n', '5', '1', '2', '\n'])

theorem singleOwner_bothFiles :
    (directoryParent twoDirs 0
      (Scanner.scan twoDirs ⟨start true, bothFiles⟩).2.inovec).SingleOwner := by
  have hscan : Scanner.scan twoDirs ⟨start true, bothFiles⟩
      = (.ok (), (Scanner.scan twoDirs ⟨start true, bothFiles⟩).2) := Prod.ext rfl rfl
  refine (singleOwner_iff (fun _ => []) hscan (by decide)).2.mpr ?_ _
    (.recovering (.directories (.single ⟨?_, rfl⟩)))
  · unfold NothingToReadmit
    decide
  · decide

/-- A device of one chunk.  Its first 32 slots are an extent, the first of them an
empty directory in directory 100; that directory stands alone in slot 40. -/
def stray : Env :=
  Device.zeroed
    { Scanner.oneChunk.device with
      data := fun k =>
        if k / 512 < 32 ∨ k / 512 = 40 then
          if k % 512 = 4 then 16
          else if k % 512 = 8 then (if k / 512 = 40 then 100 else UInt8.ofNat (k / 512))
          else if k % 512 = 16 then 4 else if k % 512 = 40 then 1
          else if k % 512 = 53 then (if k / 512 = 0 ∨ k / 512 = 40 then 0x40 else 0x80)
          else if k % 512 = 240 then 2 else if k % 512 = 244 then 100 else 0
        else 0 }

def strayFound : InodeVector :=
  ((stray.device.sane 0 41).map some).foldl (addBuilt addInode) (start true)

theorem stray_sane :
    stray.device.sane 0 (stray.device.getSizeBytes / 512) = stray.device.sane 0 41 := by
  have hsize : stray.device.getSizeBytes / 512 = 41 + (2 ^ 15 - 41) := by decide
  have hrest : stray.device.sane (0 + 41 * 512) (2 ^ 15 - 41) = [] :=
    Device.sane_of_zero (fun k hk => if_neg (by omega)) _
  rw [hsize, Device.sane_add, hrest, List.append_nil]

theorem scan_stray : ∃ s, Scanner.scan stray ⟨start true, fun _ => none⟩ = (.ok (), s) ∧
    s.inovec = (Scanner.scanFrom stray .postScan ⟨strayFound, fun _ => none⟩).inovec := by
  have hbig : chunkBytes stray.device ≤ stray.device.getSizeBytes := by decide
  have hscan := Scanner.doScan_from (s := ⟨start true, fun _ => none⟩) hbig
    (Scanner.restore_none stray rfl) ⟨rfl, by decide⟩
  rw [Nat.sub_zero, stray_sane] at hscan
  refine ⟨_, Scanner.scan_of_doScan (s := ⟨start true, fun _ => none⟩) rfl hscan, ?_⟩
  simp only [Scanner.scanFrom, Scanner.freeDinodes, Scanner.dupes, Scanner.unallocated,
    Scanner.extentscan, Scanner.scanned, Scanner.found_inovec, strayFound]

set_option maxRecDepth 10000 in
theorem stray_twoOwners :
    0 < (Scanner.scanFrom stray .postScan ⟨strayFound, fun _ => none⟩).inovec.inodes.length ∧
    ¬ (directoryParent stray 0
      (Scanner.scanFrom stray .postScan ⟨strayFound, fun _ => none⟩).inovec).SingleOwner := by
  decide +kernel

/-- **A run where an inode has two owners**: an uninterrupted scan, and one round of
`find_directory_parents`. -/
theorem not_singleOwner_stray :
    ∃ s w, Scanner.scan stray ⟨start true, fun _ => none⟩ = (.ok (), s) ∧
      Run stray (fun _ => []) true s.inovec w ∧ ¬ w.SingleOwner := by
  obtain ⟨s, hscan, hs⟩ := scan_stray
  obtain ⟨hpos, htwo⟩ := stray_twoOwners
  rw [← hs] at hpos htwo
  exact ⟨s, _, hscan, .recovering (.directories (.single ⟨hpos, rfl⟩)), htwo⟩

end Recoverer

end Jfsrec
