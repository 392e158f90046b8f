import Jfsrec.Lib.Istream
import Jfsrec.InodeVector

/-!
# Progress files

`save_positions` and `load_from_positions` of `inodevector.cpp`, with the way
both they and `InodeScanner::restore` turn a number in a file back into an
object.  Building an object and pushing it is `addBuilt`; `foldl_addBuilt` says
what a run of pushes does to a vector, whatever the pushing function, and
`runAll_loadInode` that reading a list of positions is such a run as long as no
read throws.

`not_roundTrips` is about the two functions together: the loop over
`!f.eof()` reads once more than there are lines, so what was saved is never what
is loaded.
-/

namespace Jfsrec

open Lib

inductive ProgressFile
  | inoscan
  | postScan
  | postExtentscan
  | postRemoveUnallocated
  | postRemoveDupes
  | invalidated
deriving DecidableEq, Repr

abbrev Files := ProgressFile → Option (List Char)

inductive Stage
  | postScan
  | postExtentscan
  | postRemoveUnallocated
  | postRemoveDupes
deriving DecidableEq, Repr

def Stage.file : Stage → ProgressFile
  | postScan => .postScan
  | postExtentscan => .postExtentscan
  | postRemoveUnallocated => .postRemoveUnallocated
  | postRemoveDupes => .postRemoveDupes

theorem Stage.file_ne_invalidated (s : Stage) : s.file ≠ .invalidated := by
  cases s <;> decide

/-! ### Objects behind pointers -/

/-- The object a pointer leads to; `none` for `NULL`. -/
def Heap.objOf (h : Heap) (p : Ptr) : Option Inode := if p = NULL then none else some (h.obj p)

theorem Heap.map_obj_of_map_objOf {h : Heap} : ∀ {ps : List Ptr} {os : List Inode},
    ps.map h.objOf = os.map some → (∀ p ∈ ps, p ≠ NULL) ∧ ps.map h.obj = os := by
  intro ps
  induction ps with
  | nil =>
    intro os ho
    cases os with
    | nil => simp
    | cons o os => simp at ho
  | cons p ps ih =>
    intro os ho
    cases os with
    | nil => simp at ho
    | cons o os =>
      rw [List.map_cons, List.map_cons] at ho
      obtain ⟨hp, hps⟩ := List.cons.inj ho
      obtain ⟨h1, h2⟩ := ih hps
      have hne : p ≠ NULL := by
        rintro rfl
        cases hp
      rw [Heap.objOf, if_neg hne] at hp
      rw [List.map_cons, h2, Option.some.inj hp]
      exact ⟨List.forall_mem_cons.mpr ⟨hne, h1⟩, rfl⟩

namespace InodeVector

def contents (v : InodeVector) : List (Option Inode) := v.inodes.map v.heap.objOf

def invalidatedContents (v : InodeVector) : List (Option Inode) :=
  v.invalidatedInodes.map v.heap.objOf

def offsets (v : InodeVector) : List (Option ℕ) :=
  v.contents.map (Option.map Inode.byteOffset)

def invalidatedOffsets (v : InodeVector) : List (Option ℕ) :=
  v.invalidatedContents.map (Option.map Inode.byteOffset)

def pushInode (v : InodeVector) (i : Ptr) : InodeVector := { v with inodes := v.inodes ++ [i] }

def pushInvalidated (v : InodeVector) (i : Ptr) : InodeVector :=
  { v with invalidatedInodes := v.invalidatedInodes ++ [i] }

/-- Pushes what the factory returned: a new object's address, or `NULL`. -/
def addBuilt (push : InodeVector → Ptr → InodeVector) (v : InodeVector) :
    Option Inode → InodeVector
  | none => push v NULL
  | some ino => push { v with heap := v.heap.alloc ino } v.heap.brk

def loadInode (env : Env) (push : InodeVector → Ptr → InodeVector) (bo : ℕ) (v : InodeVector) :
    Except Fault Unit × InodeVector :=
  match readFromDisk env bo with
  | .error e => (.error e, v)
  | .ok i => (.ok (), v.addBuilt push i)

/-! ### save_positions and load_from_positions -/

def savePositions (fn : ProgressFile) (v : InodeVector) (files : Files) : Files :=
  let files := Function.update files fn
    (some (Istream.lines (v.inodes.map (fun p => (v.heap.obj p).byteOffset))))
  if v.invalidatedInodes.length > 0 then
    Function.update files .invalidated
      (some (Istream.lines (v.invalidatedInodes.map (fun p => (v.heap.obj p).byteOffset))))
  else files

/-- `while (!f.eof()) { f >> bo; i = read_from_disk(bo); push(i); }` -/
def readPositions (env : Env) (push : InodeVector → Ptr → InodeVector) (f : Istream) (bo : ℕ)
    (v : InodeVector) : Except Fault (Istream × ℕ) × InodeVector :=
  Istream.whileNotEof 64 .diverge (loadInode env push) (f.rest.length + 2) f bo v

def loadFromPositions (env : Env) (fn : ProgressFile) (files : Files) (v : InodeVector) :
    Except Fault Unit × InodeVector :=
  let f := (⟨[], false, false⟩ : Istream).openFile (files fn)
  match readPositions env pushInode f env.bo v with
  | (.error e, v) => (.error e, v)
  | (.ok (f, bo), v) =>
      -- the same stream and the same variable serve the second file
      let f := f.openFile (files .invalidated)
      match readPositions env pushInvalidated f bo v with
      | (.error e, v) => (.error e, v)
      | (.ok _, v) => (.ok (), { v with diNumberIndexOk := false })

/-! ### Runs of pushes -/

variable {env : Env}

/-- What `read_from_disk` returns at an offset where it does not throw. -/
def built (env : Env) (bo : ℕ) : Option Inode :=
  match readFromDisk env bo with
  | .error _ => none
  | .ok i => i

theorem built_eq_some {bo : ℕ} {ino : Inode} (hb : built env bo = some ino) :
    ∃ ip offset, constructByMode ip offset = some ino := by
  unfold built readFromDisk at hb
  cases hr : env.device.readBytes (toInt64 bo) 512 env.fresh with
  | error e => rw [hr] at hb; cases hb
  | ok b =>
    rw [hr] at hb
    exact ⟨_, _, hb⟩

theorem built_new {bo : ℕ} {ino : Inode} (hb : built env bo = some ino) : ino.New := by
  obtain ⟨ip, offset, hc⟩ := built_eq_some hb
  exact new_of_constructByMode hc

/-- **Reading positions is pushing what is built at each**, as long as no read
throws. -/
theorem runAll_loadInode {push : InodeVector → Ptr → InodeVector} :
    ∀ (ns : List ℕ) (v : InodeVector), (∀ n ∈ ns, ∃ i, readFromDisk env n = .ok i) →
      Istream.runAll (loadInode env push) ns v
        = (.ok (), (ns.map (built env)).foldl (addBuilt push) v) := by
  intro ns
  induction ns with
  | nil => intro v _; rfl
  | cons n ns ih =>
    intro v h
    obtain ⟨i, hi⟩ := h n (by simp)
    rw [Istream.runAll, loadInode, List.map_cons, List.foldl_cons, built, hi]
    exact ih _ (fun m hm => h m (List.mem_cons_of_mem n hm))

theorem readable_of_runAll {push : InodeVector → Ptr → InodeVector} :
    ∀ (ns : List ℕ) {v v' : InodeVector}, Istream.runAll (loadInode env push) ns v = (.ok (), v') →
      ∀ n ∈ ns, ∃ i, readFromDisk env n = .ok i := by
  intro ns
  induction ns with
  | nil => intro v v' _ n hn; cases hn
  | cons m ns ih =>
    intro v v' h n hn
    rw [Istream.runAll, loadInode] at h
    cases hr : readFromDisk env m with
    | error e => rw [hr] at h; cases h
    | ok i =>
      rw [hr] at h
      rcases List.mem_cons.mp hn with rfl | hn
      · exact ⟨i, hr⟩
      · exact ih h n hn

/-- A push appends to one of the two lists, `sel`, and leaves the other, `oth`,
and the heap alone. -/
structure Pushes (push : InodeVector → Ptr → InodeVector) (sel oth : InodeVector → List Ptr) :
    Prop where
  heap : ∀ v p, (push v p).heap = v.heap
  sel_push : ∀ v p, sel (push v p) = sel v ++ [p]
  oth_push : ∀ v p, oth (push v p) = oth v
  sel_heap : ∀ (v : InodeVector) h, sel { v with heap := h } = sel v
  oth_heap : ∀ (v : InodeVector) h, oth { v with heap := h } = oth v

theorem pushes_pushInode : Pushes pushInode inodes invalidatedInodes :=
  ⟨fun _ _ => rfl, fun _ _ => rfl, fun _ _ => rfl, fun _ _ => rfl, fun _ _ => rfl⟩

theorem pushes_pushInvalidated : Pushes pushInvalidated invalidatedInodes inodes :=
  ⟨fun _ _ => rfl, fun _ _ => rfl, fun _ _ => rfl, fun _ _ => rfl, fun _ _ => rfl⟩

theorem pushes_addInode : Pushes addInode inodes invalidatedInodes :=
  ⟨addInode_heap, addInode_inodes, addInode_invalidatedInodes, fun _ _ => rfl, fun _ _ => rfl⟩

theorem forall_obj_addBuilt {P : Inode → Prop} {push : InodeVector → Ptr → InodeVector}
    {sel oth : InodeVector → List Ptr} {v : InodeVector} (hp : Pushes push sel oth)
    (hc : ∀ kind ip offset, P (.construct kind ip offset)) (hv : ∀ p, P (v.heap.obj p)) (bo : ℕ)
    (p : Ptr) : P ((v.addBuilt push (built env bo)).heap.obj p) := by
  cases hb : built env bo with
  | none =>
    rw [addBuilt, hp.heap]
    exact hv p
  | some ino =>
    rw [addBuilt, hp.heap]
    show P ((v.heap.alloc ino).obj p)
    rw [Heap.alloc_obj]
    split
    · obtain ⟨ip, offset, hino⟩ := built_eq_some hb
      obtain ⟨kind, rfl⟩ := constructByMode_eq_some hino
      exact hc kind ip offset
    · exact hv p

/-- `w` is `v` behind pushes of `os`.  The new pointers lead to what was built,
those that are not `NULL` are new addresses and no two of them agree, and the
objects that were there before stay as they are. -/
structure Pushed (sel oth : InodeVector → List Ptr) (os : List (Option Inode))
    (v w : InodeVector) : Prop where
  other : oth w = oth v
  brk : v.heap.brk ≤ w.heap.brk
  kept : ∀ p < v.heap.brk, w.heap.obj p = v.heap.obj p
  news : ∃ news, sel w = sel v ++ news ∧ news.map w.heap.objOf = os ∧
    (∀ p ∈ news, p ≠ NULL → v.heap.brk ≤ p ∧ p < w.heap.brk) ∧ (news.filter (· ≠ NULL)).Nodup

section Pushed

variable {push : InodeVector → Ptr → InodeVector} {sel oth : InodeVector → List Ptr}
  {os : List (Option Inode)} {v w : InodeVector}

theorem Pushed.null (hp : Pushes push sel oth) (h : Pushed sel oth os (v.addBuilt push none) w) :
    Pushed sel oth (none :: os) v w := by
  have hheap : (v.addBuilt push none).heap = v.heap := hp.heap v NULL
  obtain ⟨hother, hbrk, hkept, news, hsel, hobj, hnew, hnd⟩ := h
  rw [hheap] at hbrk hkept hnew
  refine ⟨hother.trans (hp.oth_push v NULL), hbrk, hkept, NULL :: news, ?_, ?_, ?_, ?_⟩
  · rw [hsel, addBuilt, hp.sel_push, List.append_assoc, List.singleton_append]
  · rw [List.map_cons, hobj]
    rfl
  · intro p hm hne
    exact hnew p ((List.mem_cons.mp hm).resolve_left hne) hne
  · rw [List.filter_cons_of_neg (by simp)]
    exact hnd

theorem Pushed.object (hp : Pushes push sel oth) (hpos : 0 < v.heap.brk) {ino : Inode}
    (h : Pushed sel oth os (v.addBuilt push (some ino)) w) :
    Pushed sel oth (some ino :: os) v w := by
  have hheap : (v.addBuilt push (some ino)).heap = v.heap.alloc ino := hp.heap _ _
  have hnull : v.heap.brk ≠ NULL := Nat.ne_of_gt hpos
  obtain ⟨hother, hbrk, hkept, news, hsel, hobj, hnew, hnd⟩ := h
  have hnext : (v.addBuilt push (some ino)).heap.brk = v.heap.brk + 1 := by rw [hheap]; rfl
  rw [hnext] at hbrk hkept hnew
  have hself : w.heap.obj v.heap.brk = ino := by
    rw [hkept _ (Nat.lt_succ_self _), hheap, Heap.alloc_obj_self]
  refine ⟨?_, by omega, ?_, v.heap.brk :: news, ?_, ?_, ?_, ?_⟩
  · rw [hother, addBuilt, hp.oth_push, hp.oth_heap]
  · intro p hlt
    rw [hkept p (by omega), hheap, Heap.alloc_obj_of_lt hlt]
  · rw [hsel, addBuilt, hp.sel_push, hp.sel_heap, List.append_assoc, List.singleton_append]
  · rw [List.map_cons, hobj, Heap.objOf, if_neg hnull, hself]
  · intro p hm hne
    rcases List.mem_cons.mp hm with rfl | hm
    · exact ⟨Nat.le_refl _, hbrk⟩
    · obtain ⟨hge, hlt⟩ := hnew p hm hne
      exact ⟨by omega, hlt⟩
  · rw [List.filter_cons_of_pos (by simpa using hnull)]
    refine List.nodup_cons.mpr ⟨fun hm => ?_, hnd⟩
    obtain ⟨hge, _⟩ := hnew _ (List.mem_of_mem_filter hm) hnull
    omega

/-- **A run of pushes appends fresh objects.** -/
theorem foldl_addBuilt (hp : Pushes push sel oth) : ∀ (os : List (Option Inode)) (v : InodeVector),
    0 < v.heap.brk → Pushed sel oth os v (os.foldl (addBuilt push) v) := by
  intro os
  induction os with
  | nil => intro v _; exact ⟨rfl, Nat.le_refl _, fun _ _ => rfl, [], by simp⟩
  | cons o os ih =>
    intro v hpos
    rw [List.foldl_cons]
    cases o with
    | none =>
      have hbrk : (v.addBuilt push none).heap.brk = v.heap.brk := by rw [addBuilt, hp.heap]
      exact Pushed.null hp (ih _ (hbrk ▸ hpos))
    | some ino =>
      have hbrk : (v.addBuilt push (some ino)).heap.brk = v.heap.brk + 1 := by
        rw [addBuilt, hp.heap]
        rfl
      exact Pushed.object hp hpos (ih _ (by omega))

end Pushed

/-! ### What a load does -/

/-- The vector after pushing what is built at the positions `ns` and `ms`. -/
def loaded (env : Env) (ns ms : List ℕ) (v : InodeVector) : InodeVector :=
  { (ms.map (built env)).foldl (addBuilt pushInvalidated)
      ((ns.map (built env)).foldl (addBuilt pushInode) v) with diNumberIndexOk := false }

/-- The empty vector a program starts from.  The class leaves
`di_number_index_ok_` uninitialised. -/
def start (ok : Bool) : InodeVector where
  heap := { obj := fun _ => .construct .unallocated ⟨fun _ => 0⟩ 0, brk := 1 }
  inodes := []
  invalidatedInodes := []
  diNumberIndex := ∅
  diNumberIndexOk := ok

theorem contents_loaded (env : Env) (ns ms : List ℕ) (ok : Bool) :
    (loaded env ns ms (start ok)).contents = ns.map (built env) ∧
      (loaded env ns ms (start ok)).invalidatedContents = ms.map (built env) := by
  obtain ⟨h1, hbrk, _, news, h4, h5, h6, _⟩ :=
    foldl_addBuilt pushes_pushInode (ns.map (built env)) (start ok) Nat.one_pos
  obtain ⟨k1, _, k3, news', k4, k5, _, _⟩ := foldl_addBuilt pushes_pushInvalidated
    (ms.map (built env)) _ (Nat.lt_of_lt_of_le Nat.one_pos hbrk)
  refine ⟨?_, ?_⟩
  · rw [← h5, contents, loaded, k1, h4]
    refine List.map_congr_left (fun p hp => ?_)
    by_cases hne : p = NULL
    · rw [hne]
      rfl
    · rw [Heap.objOf, Heap.objOf, if_neg hne, if_neg hne, k3 p (h6 p hp hne).2]
  · rw [← k5, invalidatedContents, loaded, k4, h1]
    rfl

/-- The numbers a load reads from the two files. -/
def positionsRead (env : Env) (fn : ProgressFile) (files : Files) : Option (List ℕ × List ℕ) :=
  let f := (⟨[], false, false⟩ : Istream).openFile (files fn)
  match Istream.values 64 (f.rest.length + 2) f env.bo with
  | none => none
  | some (ns, f, bo) =>
      let f := f.openFile (files .invalidated)
      match Istream.values 64 (f.rest.length + 2) f bo with
      | none => none
      | some (ms, _) => some (ns, ms)

theorem loadFromPositions_of_read {fn : ProgressFile} {files : Files} {v : InodeVector}
    {ns ms : List ℕ} (hpos : positionsRead env fn files = some (ns, ms))
    (hread : ∀ n ∈ ns ++ ms, ∃ i, readFromDisk env n = .ok i) :
    loadFromPositions env fn files v = (.ok (), loaded env ns ms v) := by
  simp only [positionsRead] at hpos
  split at hpos
  · cases hpos
  · rename_i ns' f bo hns
    split at hpos
    · cases hpos
    · rename_i ms' r hms
      obtain ⟨rfl, rfl⟩ := Prod.mk.inj (Option.some.inj hpos)
      simp only [loadFromPositions, readPositions, Istream.whileNotEof_of_values v hns,
        runAll_loadInode ns' v (fun n hn => hread n (List.mem_append_left _ hn)), Except.map]
      simp only [Istream.whileNotEof_of_values _ hms,
        runAll_loadInode ms' _ (fun n hn => hread n (List.mem_append_right _ hn)), Except.map]
      rfl

theorem loadFromPositions_ok {fn : ProgressFile} {files : Files} {v : InodeVector}
    (hok : (loadFromPositions env fn files v).1 = .ok ()) :
    ∃ ns ms f bo,
      Istream.values 64 (((⟨[], false, false⟩ : Istream).openFile (files fn)).rest.length + 2)
        ((⟨[], false, false⟩ : Istream).openFile (files fn)) env.bo = some (ns, f, bo) ∧
      (∀ n ∈ ns ++ ms, ∃ i, readFromDisk env n = .ok i) ∧
      (loadFromPositions env fn files v).2 = loaded env ns ms v := by
  rw [loadFromPositions] at hok ⊢
  simp only [readPositions] at hok ⊢
  split at hok
  · cases hok
  · rename_i f bo w hw
    split at hok
    · cases hok
    · rename_i r u hu
      obtain ⟨ns, hns, hrn⟩ := Istream.whileNotEof_ok hw
      obtain ⟨ms, _, hrm⟩ := Istream.whileNotEof_ok hu
      have hn := readable_of_runAll ns hrn
      have hm := readable_of_runAll ms hrm
      refine ⟨ns, ms, f, bo, hns, ?_, ?_⟩
      · intro n hmem
        exact (List.mem_append.mp hmem).elim (hn n) (hm n)
      · rw [runAll_loadInode ns v hn] at hrn
        cases hrn
        rw [runAll_loadInode ms _ hm] at hrm
        cases hrm
        rfl

/-! ### What is loaded is not what was saved -/

/-- `save_positions` of `v`, then `load_from_positions` into an empty vector,
ends and restores both lists. -/
def RoundTrips (env : Env) (stage : Stage) (files : Files) (v : InodeVector) (ok : Bool) : Prop :=
  (loadFromPositions env stage.file (savePositions stage.file v files) (start ok)).1 = .ok () ∧
  (loadFromPositions env stage.file (savePositions stage.file v files) (start ok)).2.offsets
    = v.offsets ∧
  (loadFromPositions env stage.file (savePositions stage.file v files)
      (start ok)).2.invalidatedOffsets = v.invalidatedOffsets

/-- **What was saved is never what is loaded.**  The loop over `!f.eof()` pushes
one inode more than the file has lines. -/
theorem not_roundTrips (stage : Stage) (files : Files) {v : InodeVector} (ok : Bool)
    (hv : ∀ p ∈ v.inodes, (v.heap.obj p).byteOffset < 2 ^ 64) :
    ¬ RoundTrips env stage files v ok := by
  rintro ⟨hok, hoff, _⟩
  let ns := v.inodes.map (fun p => (v.heap.obj p).byteOffset)
  have hfile : savePositions stage.file v files stage.file = some (Istream.lines ns) := by
    unfold savePositions
    split
    · rw [Function.update_of_ne stage.file_ne_invalidated, Function.update_self]
    · rw [Function.update_self]
  have hns := Istream.values_lines (w := 64) ns [] env.bo ((Istream.lines ns).length + 2)
    (by simp) (by simpa [ns] using hv) (by have := Istream.length_le_lines ns; omega)
  obtain ⟨ns', ms, f, bo, hns', _, hload⟩ := loadFromPositions_ok hok
  rw [hfile] at hns'
  obtain rfl : ns ++ [ns.getLastD env.bo] = ns' := by
    have h := hns.symm.trans hns'
    simp only [Option.some.injEq, Prod.mk.injEq] at h
    exact h.1
  obtain ⟨_, hbrk, _, news, h4, h5, _, _⟩ :=
    foldl_addBuilt pushes_pushInode ((ns ++ [ns.getLastD env.bo]).map (built env)) (start ok)
      Nat.one_pos
  obtain ⟨h1, _⟩ := foldl_addBuilt pushes_pushInvalidated (ms.map (built env)) _
    (Nat.lt_of_lt_of_le Nat.one_pos hbrk)
  have hlen := congrArg List.length hoff
  have hnews := congrArg List.length h5
  simp only [offsets, contents, List.length_map] at hlen
  rw [hload, loaded, h1, h4] at hlen
  simp [start, ns] at hlen hnews
  omega

/-- A device of two slots, and the vector that holds the inode of the first. -/
def twoSlots : Env := (Device.numbered .b512 2 (by decide)).zeroed

def firstSlot : InodeVector := (start false).addBuilt addInode (built twoSlots 0)

theorem not_roundTrips_firstSlot :
    ¬ RoundTrips twoSlots .postScan (fun _ => none) firstSlot true :=
  not_roundTrips .postScan (fun _ => none) true (by decide)

theorem firstSlot_loaded_twice :
    (loadFromPositions twoSlots .postScan (savePositions .postScan firstSlot (fun _ => none))
      (start true)).2.offsets = [some 0, some 0] ∧
    ¬ RoundTrips twoSlots .postScan (fun _ => none) firstSlot true := by
  have h : (loadFromPositions twoSlots .postScan
      (savePositions .postScan firstSlot (fun _ => none)) (start true)).2.offsets
        = [some 0, some 0] := by decide
  refine ⟨h, fun hr => ?_⟩
  have h1 := h.symm.trans hr.2.1
  exact absurd h1 (by decide)

end InodeVector

end Jfsrec
