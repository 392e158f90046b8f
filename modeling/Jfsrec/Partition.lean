import Jfsrec.Ownership
import Jfsrec.Postprocess
import Jfsrec.Resume

/-!
# What postprocessing leaves

The four stages together: nothing is lost, and what stays has pairwise distinct
numbers, `postprocess_partition`; and an extent whose inodes all get through
`filter_inostamps` gets through `detect_ino_extents`, `extent_survives`.

`Scanned` is what a list built by an uninterrupted scan has beyond `Ready`, and
`scanned_doScan` says that it has it.
-/

namespace Jfsrec

open Lib

namespace InodeVector

variable {env : Env} {v : InodeVector}

/-! ### Lists a scan builds -/

theorem Sound.ready (hv : v.Sound env) (hn : ∀ p ∈ v.inodes, p ≠ NULL) : v.Ready env where
  coherent := hv.coherent
  notNull := hn
  nodup := by
    have h := hv.single
    rw [SingleOwner, owned, List.filter_append,
      List.filter_eq_self.mpr (fun p hp => by simpa using hn p hp)] at h
    exact (List.nodup_append.mp h).1

/-- Offsets ascend in steps of whole slots, and the numbers are those on the
device. -/
structure Scanned (env : Env) (v : InodeVector) : Prop extends Ready env v where
  ascending : v.inodes.Pairwise (fun p q => (v.heap.obj p).byteOffset < (v.heap.obj q).byteOffset)
  aligned : ∀ p ∈ v.inodes, (v.heap.obj p).byteOffset % 512 = 0
  number : ∀ p ∈ v.inodes, (v.heap.obj p).diNumber = (v.heap.dinodeOf env p).diNumber

theorem scanned_sane (ok : Bool) {n : ℕ} (hn : n ≤ env.device.getSizeBytes / 512) :
    (((env.device.sane 0 n).map some).foldl (addBuilt addInode) (start ok)).Scanned env := by
  have hsize := env.device.getSizeBytes_eq
  let os := env.device.sane 0 n
  have hos : ∀ ino ∈ os, env.device.Slot ino.byteOffset ∧ ino.New ∧
      ino.diNumber = (env.device.dinodeAt ino.byteOffset).diNumber := by
    intro ino hino
    obtain ⟨c, hc, hoff, hcon⟩ := env.device.mem_sane hino
    obtain ⟨kind, hk⟩ := constructByMode_eq_some hcon
    refine ⟨⟨by omega, by omega⟩, new_of_constructByMode hcon, ?_⟩
    rw [hk]
    rfl
  let v := (os.map some).foldl (addBuilt addInode) (start ok)
  have hsteps : ScanSteps env (start ok) v := by
    refine scanSteps_foldl (fun _ o => .addInode o) _ _ (fun o ho ino hino => ?_)
    obtain ⟨ino', h', rfl⟩ := List.mem_map.mp ho
    obtain rfl := Option.some.inj hino
    exact (hos ino' h').2.1
  obtain ⟨hnull, hobj⟩ := Heap.map_obj_of_map_objOf (Scanner.contents_foldl_start ok (os.map some))
  have hmem : ∀ p ∈ v.inodes, v.heap.obj p ∈ os := fun p hp => by
    rw [← hobj]
    exact List.mem_map_of_mem hp
  refine ⟨((sound_start env ok).steps hsteps).ready hnull, ?_, ?_, ?_⟩
  · have h := env.device.sane_pairwise 0 n
    rw [show env.device.sane 0 n = _ from hobj.symm, List.pairwise_map] at h
    exact h
  · exact fun p hp => (hos _ (hmem p hp)).1.1
  · intro p hp
    obtain ⟨hslot, _, hnum⟩ := hos _ (hmem p hp)
    show (v.heap.obj p).diNumber = (env.readDinode (v.heap.obj p).byteOffset).diNumber
    rw [Env.readDinode_of_slot hslot, hnum]

/-- **An uninterrupted scan builds such a list.** -/
theorem scanned_doScan {files : Files} (ok : Bool)
    (hbig : chunkBytes env.device ≤ env.device.getSizeBytes) (hfile : files .inoscan = none) :
    (Scanner.doScan env ⟨start ok, files⟩).2.inovec.Scanned env := by
  have hcb := Scanner.chunkBytes_bounds env.device
  rw [Scanner.doScan_from hbig (Scanner.restore_none env hfile) ⟨rfl, by omega⟩,
    Scanner.found_inovec]
  exact scanned_sane ok (Nat.le_refl _)

/-! ### Partition -/

theorem allocated_of_selects {w : InodeVector} (hs : Selects env keepAllocated v w) {p : Ptr}
    (hp : p ∈ w.inodes) : (v.heap.dinodeOf env p).diNlink ≠ 0 := by
  rw [hs.inodes, mem_keepAt] at hp
  obtain ⟨i, hk, hi⟩ := hp
  obtain ⟨hlt, rfl⟩ := List.getElem?_eq_some_iff.mp hi
  rw [keepAllocated, views_getElem? hlt, Option.all_some] at hk
  simpa [Heap.view] using hk

def survivors (env : Env) (v : InodeVector) : InodeVector :=
  ((v.filterInostamps env).detectInoExtents env).removeUnallocated env

/-- **Postprocessing partitions the scanned inodes**, and keeps of each number the
newest of the inodes that passed the first three stages. -/
theorem postprocess_partition (hv : v.Ready env) :
    let w := v.survivors env
    let u := w.removeDupes env
    Heap.Same env v.heap u.heap ∧
      (u.inodes ++ u.invalidatedInodes).Perm (v.inodes ++ v.invalidatedInodes) ∧
      u.inodes.Sublist v.inodes ∧
      (∀ p ∈ u.inodes, (v.heap.dinodeOf env p).diNlink ≠ 0) ∧
      (u.inodes.map (fun p => (v.heap.obj p).diNumber)).Nodup ∧
      (∀ di, (∃ p ∈ u.inodes, (v.heap.obj p).diNumber = di)
        ↔ ∃ p ∈ w.inodes, (v.heap.obj p).diNumber = di) ∧
      ∀ p ∈ u.inodes, IsNewestIn env v.heap w.inodes (v.heap.obj p).diNumber p := by
  intro w u
  have h1 := filterInostamps_selects hv
  have h2 := detectInoExtents_selects (h1.ready hv)
  have h3 := removeUnallocated_selects (h2.ready (h1.ready hv))
  have hw : w.Ready env := h3.ready (h2.ready (h1.ready hv))
  have h4 : Selects env keepNewest w u := removeDupes_selects hw
  have hsw : Heap.Same env v.heap w.heap := (h1.same.trans h2.same).trans h3.same
  -- the members of `u` are the newest in `w`
  have hnew : ∀ p, p ∈ u.inodes ↔
      newest env v.heap w.inodes (v.heap.obj p).diNumber = some p := by
    intro p
    rw [← newest_same hsw, ← hsw.diNumber]
    show p ∈ (w.removeDupes env).inodes ↔ w.IsNewest env p
    rw [(removeDupes_spec hw.coherent hw.notNull).2.1, List.mem_filter, decide_eq_true_iff]
    exact ⟨fun h => h.2, fun h => ⟨(newest_mem h).1, h⟩⟩
  refine ⟨hsw.trans h4.same, ?_, ?_, ?_, ?_, ?_, ?_⟩
  · exact h4.perm.trans (h3.perm.trans (h2.perm.trans h1.perm))
  · exact h4.sublist.trans (h3.sublist.trans (h2.sublist.trans h1.sublist))
  · intro p hp
    have := allocated_of_selects h3 (h4.sublist.subset hp)
    rw [h2.same.dinodeOf, h1.same.dinodeOf] at this
    exact this
  · refine List.Nodup.map_on (fun p hp q hq he => ?_) (h4.sublist.nodup hw.nodup)
    have hpq := (hnew p).mp hp
    rw [he, (hnew q).mp hq] at hpq
    exact (Option.some.inj hpq).symm
  · intro di
    constructor
    · rintro ⟨p, hp, hdi⟩
      exact ⟨p, h4.sublist.subset hp, hdi⟩
    · rintro ⟨p, hp, hdi⟩
      cases hq : newest env v.heap w.inodes di with
      | none => exact absurd hdi (newest_eq_none.mp hq p hp)
      | some q =>
        have hqdi := (newest_mem hq).2
        exact ⟨q, (hnew q).mpr (by rw [hqdi, hq]), hqdi⟩
  · intro p hp
    exact isNewestIn_of_newest ((hnew p).mp hp)

/-- A device of two extents with the same numbers, of which the second one is newer. -/
def twoExtents : Env :=
  { Device.numbered .b512 64 (by decide) with
    data := fun k =>
      if k % 512 = 8 then UInt8.ofNat (k / 512 % 32)
      else if k % 512 = 80 then UInt8.ofNat (k / 16384)
      else (Device.numbered .b512 64 (by decide)).data k }.zeroed

def twoExtentInodes : InodeVector :=
  ((twoExtents.device.sane 0 64).map some).foldl (addBuilt addInode) (start false)

/-- All 64 pass the first stages, and one of each two is left. -/
theorem postprocess_twoExtents :
    38 ∈ (twoExtentInodes.survivors twoExtents).inodes ∧
      let u := (twoExtentInodes.survivors twoExtents).removeDupes twoExtents
      (u.inodes ++ u.invalidatedInodes).Perm (List.range' 1 64) ∧
        (u.inodes.map (fun p => (twoExtentInodes.heap.obj p).diNumber)).Nodup ∧
        ∃ p ∈ u.inodes, IsNewestIn twoExtents twoExtentInodes.heap
          (twoExtentInodes.survivors twoExtents).inodes 5 p := by
  have hscanned : twoExtentInodes.Scanned twoExtents := scanned_sane false (by decide)
  have hinodes : twoExtentInodes.inodes ++ twoExtentInodes.invalidatedInodes
      = List.range' 1 64 := by
    decide +kernel
  have hfive : (twoExtentInodes.heap.obj 38).diNumber = 5 := by decide +kernel
  have hpassed : 38 ∈ (twoExtentInodes.survivors twoExtents).inodes := by decide +kernel
  obtain ⟨_, hperm, _, _, hnodup, hiff, hnewest⟩ := postprocess_partition hscanned.toReady
  rw [hinodes] at hperm
  obtain ⟨p, hp, hnum⟩ := (hiff 5).mpr ⟨38, hpassed, hfive⟩
  exact ⟨hpassed, hperm, hnodup, p, hp, hnum ▸ hnewest p hp⟩

/-! ### Extents -/

/-- In a list of slots with ascending offsets the next slot, if it is in the list
at all, is the next element. -/
theorem getElem?_next {α : Type} {ps : List α} {off : α → ℕ}
    (hasc : ps.Pairwise (fun p q => off p < off q)) (halign : ∀ p ∈ ps, off p % 512 = 0) {i : ℕ}
    {p q : α} (hp : ps[i]? = some p) (hq : q ∈ ps) (hoff : off q = off p + 512) :
    ps[i + 1]? = some q := by
  obtain ⟨hi, rfl⟩ := List.getElem?_eq_some_iff.mp hp
  obtain ⟨m, hm, rfl⟩ := List.mem_iff_getElem.mp hq
  rw [List.pairwise_iff_getElem] at hasc
  have hlt : i < m := by
    rcases Nat.lt_trichotomy i m with h | h | h
    · exact h
    · subst h
      omega
    · have := hasc m i hm hi h
      omega
  rcases Nat.lt_or_eq_of_le hlt with h | h
  · -- an element in between would have its offset in between
    have hi1 : i + 1 < ps.length := Nat.lt_trans h hm
    have h1 := hasc i (i + 1) hi hi1 (Nat.lt_succ_self i)
    have h2 := hasc (i + 1) m hi1 hm h
    have h3 := halign ps[i] (List.getElem_mem hi)
    have h4 := halign ps[i + 1] (List.getElem_mem hi1)
    omega
  · subst h
    exact List.getElem?_eq_getElem hm

/-- **An intact extent survives.**  Its 32 inodes are `e 0`, ..., `e 31`. -/
theorem extent_survives (hv : v.Scanned env) {e : ℕ → Ptr} {b n : ℕ}
    (hfilter : ∀ k < 32, e k ∈ (v.filterInostamps env).inodes)
    (hoff : ∀ k < 32, (v.heap.obj (e k)).byteOffset = b + k * 512)
    (hnum : ∀ k < 32, (v.heap.obj (e k)).diNumber = n + k) :
    ∀ k < 32, e k ∈ ((v.filterInostamps env).detectInoExtents env).inodes := by
  have h1 := filterInostamps_selects hv.toReady
  have h2 := detectInoExtents_selects (h1.ready hv.toReady)
  let w := v.filterInostamps env
  have hasc : w.inodes.Pairwise
      (fun p q => (v.heap.obj p).byteOffset < (v.heap.obj q).byteOffset) :=
    hv.ascending.sublist h1.sublist
  have halign : ∀ p ∈ w.inodes, (v.heap.obj p).byteOffset % 512 = 0 :=
    fun p hp => hv.aligned p (h1.sublist.subset hp)
  -- the extent lies in one piece after the filter
  obtain ⟨a, ha⟩ := List.mem_iff_getElem?.mp (hfilter 0 (by omega))
  have hpos : ∀ k < 32, w.inodes[a + k]? = some (e k) := by
    intro k
    induction k with
    | zero => intro _; exact ha
    | succ k ih =>
      intro hk
      refine getElem?_next hasc halign (ih (by omega)) (hfilter (k + 1) hk) ?_
      rw [hoff (k + 1) hk, hoff k (by omega)]
      omega
  have hcont : ∀ k < 31, continues (w.views env) (a + k) = true := by
    intro k hk
    have hp := hpos k (by omega)
    have hq := hpos (k + 1) (by omega)
    have hlen : a + k + 1 < w.inodes.length := (List.getElem?_eq_some_iff.mp hq).1
    have hnumOf : ∀ j < 32, (v.heap.dinodeOf env (e j)).diNumber = n + j := fun j hj => by
      rw [← hv.number (e j) (h1.sublist.subset (hfilter j hj)), hnum j hj]
    rw [views, h1.same.view, continues_iff env v.heap hlen]
    simp only [List.getD_eq_getElem?_getD, hp, Nat.add_assoc, hq, Option.getD_some]
    rw [hnumOf k (by omega), hnumOf (k + 1) (by omega), hoff k (by omega), hoff (k + 1) (by omega)]
    omega
  intro k hk
  rw [h2.inodes, mem_keepAt]
  exact ⟨a + k, keepExtent_of_continues hcont hk, hpos k hk⟩

/-- A device of exactly one extent, and its inodes. -/
def oneExtent : Env := (Device.numbered .b512 32 (by decide)).zeroed

def extentInodes : InodeVector :=
  ((oneExtent.device.sane 0 32).map some).foldl (addBuilt addInode) (start false)

set_option maxRecDepth 4000 in
theorem extentInodes_survive :
    1 ∈ ((extentInodes.filterInostamps oneExtent).detectInoExtents oneExtent).inodes ∧
      32 ∈ ((extentInodes.filterInostamps oneExtent).detectInoExtents oneExtent).inodes := by
  have h := extent_survives (e := fun k => k + 1) (b := 0) (n := 0)
    (scanned_sane false (by decide) : extentInodes.Scanned oneExtent)
    (by decide) (by decide) (by decide)
  exact ⟨h 0 (by decide), h 31 (by decide)⟩

end InodeVector

end Jfsrec
