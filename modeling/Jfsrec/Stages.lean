import Jfsrec.Partition

/-!
# The stages of a scan

`InodeScanner::scan`: a scan, four stages after it, and a positions file written
behind each.  A run that finds such a file loads it and jumps behind the stage
that wrote it.

`scanFrom_allViews` reduces the stages from any label on to the selections that
remain.  They see views only, and a view is determined by its offset and the
device, so a run that loads the right offsets ends where an uninterrupted run
ends: `scan_resumed`.
-/

namespace Jfsrec

open Lib InodeVector

namespace Scanner

/-! ### scan -/

/-- `save_positions(".../post-scan.txt")` -/
def scanned (s : Scanner) : Scanner :=
  { s with files := savePositions .postScan s.inovec s.files }

/-- `filter_inostamps: ... extent_scan: ...`, up to the next positions file. -/
def extentscan (env : Env) (s : Scanner) : Scanner :=
  let v := (s.inovec.filterInostamps env).detectInoExtents env
  ⟨v, savePositions .postExtentscan v s.files⟩

def unallocated (env : Env) (s : Scanner) : Scanner :=
  let v := s.inovec.removeUnallocated env
  ⟨v, savePositions .postRemoveUnallocated v s.files⟩

def dupes (env : Env) (s : Scanner) : Scanner :=
  let v := s.inovec.removeDupes env
  ⟨v, savePositions .postRemoveDupes v s.files⟩

def freeDinodes (s : Scanner) : Scanner := { s with inovec := s.inovec.freeDinodes }

/-- What `scan` runs from the label behind a stage on. -/
def scanFrom (env : Env) : Stage → Scanner → Scanner
  | .postScan, s => (((s.extentscan env).unallocated env).dupes env).freeDinodes
  | .postExtentscan, s => ((s.unallocated env).dupes env).freeDinodes
  | .postRemoveUnallocated, s => (s.dupes env).freeDinodes
  | .postRemoveDupes, s => s

/-- The positions files in the order `scan` looks for them. -/
def stages : List Stage := [.postRemoveDupes, .postRemoveUnallocated, .postExtentscan, .postScan]

def latest (files : Files) : Option Stage := stages.find? (fun stage => (files stage.file).isSome)

def scan (env : Env) (s : Scanner) : Except Fault Unit × Scanner :=
  match latest s.files with
  | some stage =>
      match s.inovec.loadFromPositions env stage.file s.files with
      | (.error e, v) => (.error e, { s with inovec := v })
      | (.ok _, v) => (.ok (), scanFrom env stage { s with inovec := v })
  | none =>
      match s.doScan env with
      | (.error e, s) => (.error e, s)
      | (.ok _, s) => (.ok (), scanFrom env .postScan s.scanned)

def boundary (env : Env) (s : Scanner) : Stage → Scanner
  | .postScan => s.scanned
  | .postExtentscan => s.scanned.extentscan env
  | .postRemoveUnallocated => (s.scanned.extentscan env).unallocated env
  | .postRemoveDupes => ((s.scanned.extentscan env).unallocated env).dupes env

end Scanner

/-! ### Selections in a row -/

abbrev Selection := List View → ℕ → Bool

/-- A selection on the two lists of views. -/
def select (a : List View × List View) (sel : Selection) : List View × List View :=
  (keepAt (sel a.1) a.1, a.2 ++ keepAt (fun i => !sel a.1 i) a.1)

/-- The selections that remain behind a stage. -/
def Stage.remaining : Stage → List Selection
  | .postScan => [keepInostamp, keepExtent, keepAllocated, keepNewest]
  | .postExtentscan => [keepAllocated, keepNewest]
  | .postRemoveUnallocated => [keepNewest]
  | .postRemoveDupes => []

theorem mem_foldl_select {x : View} : ∀ (sels : List Selection) {a : List View × List View},
    x ∈ (sels.foldl select a).1 ++ (sels.foldl select a).2 → x ∈ a.1 ++ a.2 := by
  intro sels
  induction sels with
  | nil => exact id
  | cons sel sels ih =>
    intro a hx
    have hperm : ((select a sel).1 ++ (select a sel).2).Perm (a.1 ++ a.2) := by
      refine (List.perm_append_comm_assoc _ _ _).trans ?_
      exact (List.Perm.append_left _ (keepAt_perm _ _)).trans List.perm_append_comm
    exact hperm.subset (ih hx)

namespace InodeVector

variable {env : Env} {v w : InodeVector}

def allViews (env : Env) (v : InodeVector) : List View × List View :=
  (v.views env, v.invalidatedViews env)

theorem Selects.allViews {sel : Selection} (hs : Selects env sel v w) :
    w.allViews env = select (v.allViews env) sel := by
  rw [InodeVector.allViews, hs.views_eq, hs.invalidatedViews_eq]
  rfl

theorem allViews_freeDinodes (v : InodeVector) : v.freeDinodes.allViews env = v.allViews env := by
  have hs : Heap.Same env v.heap v.freeDinodes.heap :=
    same_foldl (fun _ _ => Heap.cacheSame_freeDinode.toSame) v.inodes v.heap
  rw [allViews, views, invalidatedViews, hs.view]
  rfl

end InodeVector

namespace Scanner

variable {env env' : Env} {s : Scanner}

/-- **The stages are the selections that remain**, whatever is marked or cached,
and whether or not the index may be used. -/
theorem scanFrom_allViews (hv : s.inovec.Ready env) (stage : Stage) :
    (scanFrom env stage s).inovec.allViews env
      = stage.remaining.foldl select (s.inovec.allViews env) := by
  cases stage with
  | postScan =>
    have h1 := filterInostamps_selects hv
    have h2 := detectInoExtents_selects (h1.ready hv)
    have h3 := removeUnallocated_selects (h2.ready (h1.ready hv))
    have h4 := removeDupes_selects (h3.ready (h2.ready (h1.ready hv)))
    rw [Stage.remaining, List.foldl_cons, List.foldl_cons, List.foldl_cons, List.foldl_cons,
      List.foldl_nil, ← h1.allViews, ← h2.allViews, ← h3.allViews, ← h4.allViews]
    simp only [scanFrom, freeDinodes, allViews_freeDinodes, dupes, unallocated, extentscan]
  | postExtentscan =>
    have h3 := removeUnallocated_selects hv
    have h4 := removeDupes_selects (h3.ready hv)
    rw [Stage.remaining, List.foldl_cons, List.foldl_cons, List.foldl_nil, ← h3.allViews,
      ← h4.allViews]
    simp only [scanFrom, freeDinodes, allViews_freeDinodes, dupes, unallocated]
  | postRemoveUnallocated =>
    rw [Stage.remaining, List.foldl_cons, List.foldl_nil, ← (removeDupes_selects hv).allViews]
    simp only [scanFrom, freeDinodes, allViews_freeDinodes, dupes]
  | postRemoveDupes => rfl

/-- What is left to do at a boundary is what is left of the run. -/
theorem boundary_allViews (hv : s.inovec.Ready env) (stage : Stage) :
    ∃ done, (boundary env s stage).inovec.allViews env = done.foldl select (s.inovec.allViews env) ∧
      done ++ stage.remaining = Stage.remaining .postScan := by
  have h1 := filterInostamps_selects hv
  have h2 := detectInoExtents_selects (h1.ready hv)
  have h3 := removeUnallocated_selects (h2.ready (h1.ready hv))
  have h4 := removeDupes_selects (h3.ready (h2.ready (h1.ready hv)))
  cases stage with
  | postScan => exact ⟨[], rfl, rfl⟩
  | postExtentscan =>
    refine ⟨[keepInostamp, keepExtent], ?_, rfl⟩
    rw [List.foldl_cons, List.foldl_cons, List.foldl_nil, ← h1.allViews, ← h2.allViews]
    simp only [boundary, extentscan, scanned]
  | postRemoveUnallocated =>
    refine ⟨[keepInostamp, keepExtent, keepAllocated], ?_, rfl⟩
    rw [List.foldl_cons, List.foldl_cons, List.foldl_cons, List.foldl_nil, ← h1.allViews,
      ← h2.allViews, ← h3.allViews]
    simp only [boundary, unallocated, extentscan, scanned]
  | postRemoveDupes =>
    refine ⟨[keepInostamp, keepExtent, keepAllocated, keepNewest], ?_, rfl⟩
    rw [List.foldl_cons, List.foldl_cons, List.foldl_cons, List.foldl_cons, List.foldl_nil,
      ← h1.allViews, ← h2.allViews, ← h3.allViews, ← h4.allViews]
    simp only [boundary, dupes, unallocated, extentscan, scanned]

end Scanner

/-! ### Views on the device -/

/-- The view is that of the inode `read_from_disk` builds at its offset, in a slot
of the device. -/
structure View.OnDevice (dev : Device) (x : View) : Prop where
  slot : dev.Slot x.byteOffset
  dinode : x.dinode = dev.dinodeAt x.byteOffset
  built : (constructByMode (dev.dinodeAt x.byteOffset) x.byteOffset).map
    (fun ino => (ino.kind, ino.diNumber, ino.parentDiNumber))
      = some (x.kind, x.diNumber, x.parentDiNumber)

/-- Offset and device determine the view. -/
theorem View.OnDevice.eq {dev : Device} {x y : View} (hx : x.OnDevice dev) (hy : y.OnDevice dev)
    (h : x.byteOffset = y.byteOffset) : x = y := by
  have hb := hx.built
  rw [h, hy.built] at hb
  have hd : x.dinode = y.dinode := by rw [hx.dinode, hy.dinode, h]
  cases x
  cases y
  simp only [Option.some.injEq, Prod.mk.injEq] at hb
  simp only [View.mk.injEq]
  exact ⟨hb.1.symm, h, hb.2.1.symm, hb.2.2.symm, hd⟩

theorem views_eq_of_offsets {dev : Device} : ∀ {l l' : List View},
    l.map View.byteOffset = l'.map View.byteOffset → (∀ x ∈ l, x.OnDevice dev) →
    (∀ x ∈ l', x.OnDevice dev) → l = l' := by
  intro l
  induction l with
  | nil =>
    intro l' h _ _
    exact (List.map_eq_nil_iff.mp h.symm).symm
  | cons x l ih =>
    intro l' h hl hl'
    cases l' with
    | nil => cases h
    | cons y l' =>
      rw [List.map_cons, List.map_cons] at h
      obtain ⟨hxy, hrest⟩ := List.cons.inj h
      rw [(hl x (by simp)).eq (hl' y (by simp)) hxy, ih hrest
        (fun z hz => hl z (List.mem_cons_of_mem x hz))
        (fun z hz => hl' z (List.mem_cons_of_mem y hz))]

theorem view_onDevice {env : Env} {h : Heap} {p : Ptr} {o : ℕ} (hslot : env.device.Slot o)
    (hcon : constructByMode (env.device.dinodeAt o) o = some (h.obj p)) :
    (h.view env p).OnDevice env.device ∧ (h.view env p).byteOffset = o := by
  obtain ⟨kind, hk⟩ := constructByMode_eq_some hcon
  have hoff : (h.view env p).byteOffset = o := by
    show (h.obj p).byteOffset = o
    rw [hk]
    rfl
  refine ⟨⟨by rw [hoff]; exact hslot, ?_, ?_⟩, hoff⟩
  · show env.readDinode (h.view env p).byteOffset = _
    rw [hoff]
    exact Env.readDinode_of_slot hslot
  · rw [hoff, hcon]
    rfl

theorem map_view_onDevice {env : Env} {h : Heap} : ∀ {ps : List Ptr} {os : List ℕ},
    ps.map h.objOf = os.map (built env) →
    (∀ o ∈ os, ∃ x : View, x.OnDevice env.device ∧ x.byteOffset = o) →
    (∀ p ∈ ps, p ≠ NULL ∧ (h.view env p).OnDevice env.device) ∧
      (ps.map (h.view env)).map View.byteOffset = os := by
  intro ps
  induction ps with
  | nil =>
    intro os ho _
    cases os with
    | nil => simp
    | cons o os => simp at ho
  | cons p ps ih =>
    intro os ho hos
    cases os with
    | nil => simp at ho
    | cons o os =>
      rw [List.map_cons, List.map_cons] at ho
      obtain ⟨hp, hps⟩ := List.cons.inj ho
      obtain ⟨h1, h2⟩ := ih hps (fun o' ho' => hos o' (List.mem_cons_of_mem o ho'))
      obtain ⟨x, hx, rfl⟩ := hos o (by simp)
      obtain ⟨ino, hino, _⟩ := Option.map_eq_some_iff.mp hx.built
      rw [built_of_slot hx.slot, hino] at hp
      have hne : p ≠ NULL := by
        rintro rfl
        cases hp
      rw [Heap.objOf, if_neg hne] at hp
      rw [← hp] at hino
      obtain ⟨hon, hoff⟩ := view_onDevice hx.slot hino
      rw [List.map_cons, List.map_cons, h2, hoff]
      exact ⟨List.forall_mem_cons.mpr ⟨⟨hne, hon⟩, h1⟩, rfl⟩

/-- **Loading the offsets of views on the device gives these views**, in a vector
that is ready for the next stage. -/
theorem allViews_loaded {env : Env} {l l' : List View}
    (hon : ∀ x ∈ l ++ l', x.OnDevice env.device) (ok : Bool) :
    let v := loaded env (l.map View.byteOffset) (l'.map View.byteOffset) (start ok)
    v.Ready env ∧ v.allViews env = (l, l') := by
  intro v
  have hl : ∀ o ∈ l.map View.byteOffset, ∃ x : View, x.OnDevice env.device ∧ x.byteOffset = o := by
    intro o ho
    obtain ⟨x, hx, rfl⟩ := List.mem_map.mp ho
    exact ⟨x, hon x (List.mem_append_left _ hx), rfl⟩
  have hl' : ∀ o ∈ l'.map View.byteOffset,
      ∃ x : View, x.OnDevice env.device ∧ x.byteOffset = o := by
    intro o ho
    obtain ⟨x, hx, rfl⟩ := List.mem_map.mp ho
    exact ⟨x, hon x (List.mem_append_right _ hx), rfl⟩
  obtain ⟨hcon, hcon'⟩ := contents_loaded env (l.map View.byteOffset)
    (l'.map View.byteOffset) ok
  obtain ⟨h1, h2⟩ := map_view_onDevice hcon hl
  obtain ⟨h3, h4⟩ := map_view_onDevice hcon' hl'
  have hsound := (sound_start env ok).steps
    (scanSteps_loaded (l.map View.byteOffset) (l'.map View.byteOffset) _)
  refine ⟨hsound.ready (fun p hp => (h1 p hp).1), Prod.ext ?_ ?_⟩
  · refine views_eq_of_offsets h2 (fun x hx => ?_) (fun x hx => hon x (List.mem_append_left _ hx))
    obtain ⟨p, hp, rfl⟩ := List.mem_map.mp hx
    exact (h1 p hp).2
  · refine views_eq_of_offsets h4 (fun x hx => ?_) (fun x hx => hon x (List.mem_append_right _ hx))
    obtain ⟨p, hp, rfl⟩ := List.mem_map.mp hx
    exact (h3 p hp).2

namespace Scanner

variable {env env' : Env} {s : Scanner}

/-- An uninterrupted scan ends with views on the device, and invalidates nothing. -/
theorem onDevice_doScan {ok : Bool} {files : Files} (hfile : files .inoscan = none)
    (hscan : doScan env ⟨start ok, files⟩ = (.ok (), s)) :
    s.inovec.Ready env ∧ s.inovec.invalidatedInodes = [] ∧
      ∀ p ∈ s.inovec.inodes, (s.inovec.heap.view env p).OnDevice env.device := by
  have hbig : chunkBytes env.device ≤ env.device.getSizeBytes := by
    by_contra hsmall
    refine not_ok_of_small (s := ⟨start ok, files⟩) (Nat.lt_of_not_le hsmall) ?_
    rw [hscan]
  have hready := (scanned_doScan ok hbig hfile).toReady
  rw [hscan] at hready
  have hcb := chunkBytes_bounds env.device
  have hsize := env.device.getSizeBytes_eq
  rw [doScan_from hbig (restore_none env hfile) ⟨rfl, by omega⟩] at hscan
  obtain rfl := (Prod.mk.inj hscan).2
  refine ⟨hready, ?_, fun p hp => ?_⟩
  · rw [found_inovec]
    exact (foldl_addBuilt pushes_addInode _ (start ok) Nat.one_pos).1
  · rw [found_inovec] at hp ⊢
    obtain ⟨_, hobj⟩ := Heap.map_obj_of_map_objOf (contents_foldl_start ok
      ((env.device.sane 0 ((env.device.getSizeBytes - 0) / 512)).map some))
    obtain ⟨c, hc, hoff, hcon⟩ := env.device.mem_sane (by
      rw [← hobj]
      exact List.mem_map_of_mem hp)
    exact (view_onDevice ⟨by omega, by omega⟩ hcon).1

/-- The offsets of pointers that lead to objects. -/
theorem map_byteOffset_view {h : Heap} : ∀ {ps : List Ptr} {ns : List ℕ},
    (ps.map h.objOf).map (Option.map Inode.byteOffset) = ns.map some →
    (ps.map (h.view env)).map View.byteOffset = ns := by
  intro ps
  induction ps with
  | nil =>
    intro ns hn
    exact (List.map_eq_nil_iff.mp hn.symm).symm
  | cons p ps ih =>
    intro ns hn
    cases ns with
    | nil => cases hn
    | cons n ns =>
      obtain ⟨hp, hps⟩ := List.cons.inj hn
      rw [List.map_cons, List.map_cons, ih hps]
      obtain ⟨ino, hino, rfl⟩ := Option.map_eq_some_iff.mp hp
      unfold Heap.objOf at hino
      split at hino
      · cases hino
      · rw [← Option.some.inj hino]
        rfl

/-- Whatever stands at a boundary was found on the device. -/
theorem onDevice_boundary {ok : Bool} {files : Files} (hfile : files .inoscan = none)
    (hscan : doScan env ⟨start ok, files⟩ = (.ok (), s)) (stage : Stage) :
    ∀ x ∈ (boundary env s stage).inovec.views env ++
      (boundary env s stage).inovec.invalidatedViews env, x.OnDevice env.device := by
  obtain ⟨hready, hinv, hon⟩ := onDevice_doScan hfile hscan
  obtain ⟨done, hdone, _⟩ := boundary_allViews hready stage
  intro x hx
  have hx' : x ∈ s.inovec.views env ++ s.inovec.invalidatedViews env := by
    refine mem_foldl_select done (a := s.inovec.allViews env) ?_
    rw [← hdone]
    exact hx
  rw [invalidatedViews, hinv, List.map_nil, List.append_nil] at hx'
  obtain ⟨p, hp, rfl⟩ := List.mem_map.mp hx'
  exact hon p hp

theorem scan_of_doScan {s' : Scanner} (hlatest : latest s.files = none)
    (hscan : s.doScan env = (.ok (), s')) :
    scan env s = (.ok (), scanFrom env .postScan s'.scanned) := by
  rw [scan]
  simp only [hlatest, hscan]

/-- An uninterrupted run does at the end what is left to do at a boundary. -/
theorem scan_uninterrupted {ok : Bool} {files : Files} (hfresh : ∀ fn, files fn = none)
    (hscan : doScan env ⟨start ok, files⟩ = (.ok (), s)) (stage : Stage) :
    (scan env ⟨start ok, files⟩).1 = .ok () ∧
      (scan env ⟨start ok, files⟩).2.inovec.allViews env
        = stage.remaining.foldl select ((boundary env s stage).inovec.allViews env) := by
  obtain ⟨hready, _⟩ := onDevice_doScan (hfresh .inoscan) hscan
  have hnone : latest files = none := List.find?_eq_none.mpr (fun st _ => by simp [hfresh])
  have hfull := scan_of_doScan (s := ⟨start ok, files⟩) hnone hscan
  obtain ⟨done, hdone, hrest⟩ := boundary_allViews hready stage
  refine ⟨by rw [hfull], ?_⟩
  rw [hfull, hdone, ← List.foldl_append, hrest]
  exact scanFrom_allViews (s := s.scanned) hready .postScan

/-- **Skipping stages is transparent.**  A run that finds, for its latest stage,
files that read as the offsets at that boundary ends with the views an
uninterrupted run ends with; and so does whatever starts there with these views. -/
theorem scan_resumed {ok ok' : Bool} {files files' : Files} {stage : Stage} {ns ms : List ℕ}
    (hfresh : ∀ fn, files fn = none) (hscan : doScan env ⟨start ok, files⟩ = (.ok (), s))
    (hdev : env'.device = env.device) (hlatest : latest files' = some stage)
    (hpos : positionsRead env' stage.file files' = some (ns, ms))
    (hns : (boundary env s stage).inovec.offsets = ns.map some)
    (hms : (boundary env s stage).inovec.invalidatedOffsets = ms.map some) :
    (scan env ⟨start ok, files⟩).1 = .ok () ∧
      (scan env' ⟨start ok', files'⟩).1 = .ok () ∧
      (scan env' ⟨start ok', files'⟩).2.inovec.allViews env'
        = (scan env ⟨start ok, files⟩).2.inovec.allViews env ∧
      ∀ v : InodeVector, v.Ready env' →
        v.allViews env' = (boundary env s stage).inovec.allViews env →
        (scanFrom env' stage ⟨v, files'⟩).inovec.allViews env'
          = (scan env ⟨start ok, files⟩).2.inovec.allViews env := by
  obtain ⟨hok, hfinal⟩ := scan_uninterrupted hfresh hscan stage
  have hfrom : ∀ v : InodeVector, v.Ready env' →
      v.allViews env' = (boundary env s stage).inovec.allViews env →
      (scanFrom env' stage ⟨v, files'⟩).inovec.allViews env'
        = (scan env ⟨start ok, files⟩).2.inovec.allViews env := by
    intro v hv hviews
    rw [hfinal, ← hviews]
    exact scanFrom_allViews (s := ⟨v, files'⟩) hv stage
  -- the offsets read back are those of the views at the boundary
  have hon := onDevice_boundary (hfresh .inoscan) hscan stage
  rw [← hdev] at hon
  have hnsb : ((boundary env s stage).inovec.views env).map View.byteOffset = ns :=
    map_byteOffset_view hns
  have hmsb : ((boundary env s stage).inovec.invalidatedViews env).map View.byteOffset = ms :=
    map_byteOffset_view hms
  subst hnsb hmsb
  obtain ⟨hready, hviews⟩ := allViews_loaded hon ok'
  have hload := loadFromPositions_of_read (v := start ok') hpos (fun n hn => by
    rw [← List.map_append] at hn
    obtain ⟨x, hx, rfl⟩ := List.mem_map.mp hn
    exact ⟨_, readFromDisk_of_slot (hon x hx).slot⟩)
  have hresumed : scan env' ⟨start ok', files'⟩ = (.ok (), scanFrom env' stage
      ⟨loaded env' (((boundary env s stage).inovec.views env).map View.byteOffset)
        (((boundary env s stage).inovec.invalidatedViews env).map View.byteOffset) (start ok'),
        files'⟩) := by
    rw [scan]
    simp only [hlatest, hload]
  refine ⟨hok, by rw [hresumed], ?_, hfrom⟩
  rw [hresumed]
  exact hfrom _ hready hviews

/-- A device of one chunk that begins with an inode extent, and has one inode more in slot 40. -/
def strayDisk : Env :=
  { oneChunk.device with
    data := fun k =>
      if k < 16384 ∨ 20480 ≤ k ∧ k < 20992 then oneChunk.device.data k else 0 }.zeroed

theorem sane_strayDisk :
    strayDisk.device.sane 0 (strayDisk.device.getSizeBytes / 512) = strayDisk.device.sane 0 41 := by
  have hsize : strayDisk.device.getSizeBytes / 512 = 41 + (2 ^ 15 - 41) := by decide
  have hrest : strayDisk.device.sane (0 + 41 * 512) (2 ^ 15 - 41) = [] :=
    Device.sane_of_zero (fun k hk => if_neg (by omega)) _
  rw [hsize, Device.sane_add, hrest, List.append_nil]

def strayFound : InodeVector :=
  ((strayDisk.device.sane 0 41).map some).foldl (addBuilt addInode) (start true)

theorem doScan_strayDisk : ∃ s, doScan strayDisk ⟨start true, fun _ => none⟩ = (.ok (), s) ∧
    s.inovec = strayFound := by
  have hbig : chunkBytes strayDisk.device ≤ strayDisk.device.getSizeBytes := by decide
  refine ⟨_, doScan_from hbig (restore_none strayDisk rfl) ⟨rfl, by decide⟩, ?_⟩
  rw [found_inovec, Nat.sub_zero, sane_strayDisk]
  rfl

/-- The files behind `detect_ino_extents`, which keeps the extent only; the last newlines have not
been written. -/
def strayFiles : Files :=
  Function.update (Function.update (fun _ => none)
    .postExtentscan (some (Istream.lines ((List.range 32).map (· * 512))).dropLast))
    .invalidated (some (Istream.lines [20480]).dropLast)

/-- The scan goes on behind `detect_ino_extents`, with an inode invalidated. -/
theorem scan_resumed_strayDisk :
    latest strayFiles = some .postExtentscan ∧
      (scan strayDisk ⟨start true, strayFiles⟩).1 = .ok () ∧
      (scan strayDisk ⟨start true, strayFiles⟩).2.inovec.allViews strayDisk
        = (scan strayDisk ⟨start true, fun _ => none⟩).2.inovec.allViews strayDisk := by
  obtain ⟨s, hscan, hfound⟩ := doScan_strayDisk
  have hboundary : (boundary strayDisk s .postExtentscan).inovec
      = (strayFound.filterInostamps strayDisk).detectInoExtents strayDisk := by
    rw [← hfound]
    rfl
  have hns : (boundary strayDisk s .postExtentscan).inovec.offsets
      = ((List.range 32).map (· * 512)).map some := by
    rw [hboundary]
    decide +kernel
  have hms : (boundary strayDisk s .postExtentscan).inovec.invalidatedOffsets
      = [20480].map some := by
    rw [hboundary]
    decide +kernel
  have hpos : positionsRead strayDisk Stage.postExtentscan.file strayFiles
      = some ((List.range 32).map (· * 512), [20480]) := by decide +kernel
  obtain ⟨-, hok, hviews, -⟩ : _ ∧ (scan strayDisk ⟨start true, strayFiles⟩).1 = .ok () ∧ _ ∧ _ :=
    scan_resumed (fun _ => rfl) hscan rfl (by decide : latest strayFiles = some .postExtentscan)
      hpos hns hms
  exact ⟨by decide, hok, hviews⟩

end Scanner

end Jfsrec
