import Jfsrec.Positions

/-!
# Runs of vector operations

The member functions of `InodeVector` in any order, from an empty vector whose
`di_number_index_ok_` is not initialised.  `Reachable` collects the states such
runs pass through and `Invariant` is what holds in all of them: caches agree with
the device, members are objects, and the index is right whenever the flag says
so.  `indexRight_of_reachable` reads the answers of `get_by_di_number` off it.
-/

namespace Jfsrec

open Lib

namespace InodeVector

variable {env : Env} {h h' : Heap} {v w : InodeVector}

/-! ### Operations -/

/-- One call on a vector.  `new` is the creation of an object by the caller; a
load that is left by an exception ends the program and is no operation. -/
inductive Operation (env : Env) (v : InodeVector) : InodeVector → Prop
  | new (ino : Inode) (hino : ino.dinode = none) :
      Operation env v { v with heap := v.heap.alloc ino }
  | addInode (i : Ptr) (hi : v.heap.Live i) : Operation env v (v.addInode i)
  | getByDiNumber (di : ℕ) : Operation env v (v.getByDiNumber env di).2
  | removeMarked : Operation env v v.removeMarked
  | removeUnmarked : Operation env v v.removeUnmarked
  | removeDupes : Operation env v (v.removeDupes env)
  | loadFromPositions (fn : ProgressFile) (files : Files)
      (hok : (v.loadFromPositions env fn files).1 = .ok ())
      (hnull : NULL ∉ (v.loadFromPositions env fn files).2.inodes) :
      Operation env v (v.loadFromPositions env fn files).2
  | mark (p : Ptr) : Operation env v { v with heap := v.heap.mark p }
  | unmark (p : Ptr) : Operation env v { v with heap := v.heap.unmark p }

/-- The states runs of operations reach from an empty vector. -/
inductive Reachable (env : Env) : InodeVector → Prop
  | start (ok : Bool) : Reachable env (start ok)
  | step {v w : InodeVector} (hv : Reachable env v) (hop : Operation env v w) : Reachable env w

/-! ### The invariant -/

structure Invariant (env : Env) (v : InodeVector) : Prop where
  brk : 0 < v.heap.brk
  coherent : v.heap.Coherent env
  live : ∀ p ∈ v.inodes, v.heap.Live p
  index : v.IndexValid env

theorem Invariant.of_same (hv : v.Invariant env) {h : Heap} (hs : Heap.Same env v.heap h) :
    { v with heap := h }.Invariant env where
  brk := by
    show 0 < h.brk
    rw [hs.brk]
    exact hv.brk
  coherent := hs.coherent hv.coherent
  live p hp := ⟨(hv.live p hp).1, by
    show p < h.brk
    rw [hs.brk]
    exact (hv.live p hp).2⟩
  index hok di := by
    rw [newest_same hs]
    exact hv.index hok di

theorem Invariant.removeWhere (hv : v.Invariant env) (out : Inode → Bool) :
    (v.removeWhere out).Invariant env where
  brk := hv.brk
  coherent := hv.coherent
  live p hp := by
    rw [removeWhere_inodes (fun q hq => (hv.live q hq).1)] at hp
    exact hv.live p (List.mem_of_mem_filter hp)
  index hok := by cases hok

theorem Invariant.removeDupes (hv : v.Invariant env) : (v.removeDupes env).Invariant env := by
  obtain ⟨hs, hin, _, hok⟩ := removeDupes_spec hv.coherent (fun q hq => (hv.live q hq).1)
  have h := hv.of_same hs
  refine ⟨h.brk, h.coherent, fun p hp => h.live p ?_, fun hok' => by rw [hok] at hok'; cases hok'⟩
  rw [hin] at hp
  exact List.mem_of_mem_filter hp

theorem Invariant.alloc (hv : v.Invariant env) {ino : Inode} (hino : ino.dinode = none) :
    { v with heap := v.heap.alloc ino }.Invariant env where
  brk := Nat.succ_pos _
  coherent := hv.coherent.alloc hino
  live p hp := ⟨(hv.live p hp).1, Nat.lt_succ_of_lt (hv.live p hp).2⟩
  index hok di := by
    show v.diNumberIndex[di]? = newest env (v.heap.alloc ino) v.inodes di
    rw [newest_congr (fun p hp => Heap.alloc_obj_of_lt (hv.live p hp).2)]
    exact hv.index hok di

theorem coherent_foldl_addBuilt {push : InodeVector → Ptr → InodeVector}
    {sel oth : InodeVector → List Ptr} (hp : Pushes push sel oth) (ns : List ℕ) (v : InodeVector)
    (hc : v.heap.Coherent env) :
    ((ns.map (built env)).foldl (addBuilt push) v).heap.Coherent env := by
  induction ns generalizing v with
  | nil => exact hc
  | cons n ns ih =>
    rw [List.map_cons, List.foldl_cons]
    refine ih _ ?_
    cases hb : built env n with
    | none =>
      rw [addBuilt, hp.heap]
      exact hc
    | some ino =>
      rw [addBuilt, hp.heap]
      exact hc.alloc (built_new hb).dinode

theorem Invariant.loaded (hv : v.Invariant env) (ns ms : List ℕ)
    (hnull : NULL ∉ (loaded env ns ms v).inodes) : (loaded env ns ms v).Invariant env := by
  obtain ⟨_, hbrk1, _, news, hin, _, hnews, _⟩ :=
    foldl_addBuilt pushes_pushInode (ns.map (built env)) v hv.brk
  have hpos := Nat.lt_of_lt_of_le hv.brk hbrk1
  obtain ⟨hoth, hbrk2, _, _⟩ := foldl_addBuilt pushes_pushInvalidated (ms.map (built env)) _ hpos
  refine ⟨Nat.lt_of_lt_of_le hpos hbrk2, ?_, ?_, fun hok => by cases hok⟩
  · exact coherent_foldl_addBuilt pushes_pushInvalidated ms _
      (coherent_foldl_addBuilt pushes_pushInode ns v hv.coherent)
  · intro p hp
    have hne : p ≠ NULL := by
      rintro rfl
      exact hnull hp
    have hmem : p ∈ v.inodes ++ news := by
      rw [← hin, ← hoth]
      exact hp
    refine ⟨hne, ?_⟩
    refine Nat.lt_of_lt_of_le ?_ hbrk2
    rcases List.mem_append.mp hmem with hp | hp
    · exact Nat.lt_of_lt_of_le (hv.live p hp).2 hbrk1
    · exact (hnews p hp hne).2

/-- **Every operation keeps the invariant.** -/
theorem Invariant.step (hv : v.Invariant env) (hop : Operation env v w) : w.Invariant env := by
  cases hop with
  | new ino hino => exact hv.alloc hino
  | addInode i hi =>
    refine ⟨?_, ?_, ?_, indexValid_addInode hv.index i⟩
    · simpa using hv.brk
    · simpa using hv.coherent
    · intro p hp
      rw [addInode_inodes] at hp
      rw [addInode_heap]
      rcases List.mem_append.mp hp with hp | hp
      · exact hv.live p hp
      · rw [List.mem_singleton.mp hp]
        exact hi
  | getByDiNumber di =>
    obtain ⟨_, hs, hin, _, _, hidx⟩ := getByDiNumber_spec hv.coherent hv.index di
    have h := hv.of_same hs.toSame
    refine ⟨h.brk, h.coherent, fun p hp => h.live p ?_, hidx⟩
    rw [hin] at hp
    exact hp
  | removeMarked => exact hv.removeWhere _
  | removeUnmarked => exact hv.removeWhere _
  | removeDupes => exact hv.removeDupes
  | loadFromPositions fn files hok hnull =>
    obtain ⟨ns, ms, _, _, _, _, hload⟩ := loadFromPositions_ok hok
    rw [hload] at hnull ⊢
    exact hv.loaded ns ms hnull
  | mark p => exact hv.of_same Heap.same_mark
  | unmark p => exact hv.of_same Heap.same_unmark

/-- The empty vector, with either value of the flag: the empty index is right. -/
theorem invariant_start (ok : Bool) : (start ok).Invariant env where
  brk := Nat.one_pos
  coherent p d hd := by cases hd
  live p hp := by cases hp
  index _ di := by simp [start, newest]

theorem Reachable.invariant (hv : Reachable env v) : v.Invariant env := by
  induction hv with
  | start ok => exact invariant_start ok
  | step _ hop ih => exact ih.step hop

/-! ### What the index and `get_by_di_number` answer -/

/-- The index, where it may be used, and the answers of `get_by_di_number`. -/
structure IndexRight (env : Env) (v : InodeVector) : Prop where
  keys : v.diNumberIndexOk = true →
    ∀ di, di ∈ v.diNumberIndex ↔ ∃ p ∈ v.inodes, (v.heap.obj p).diNumber = di
  values : v.diNumberIndexOk = true →
    ∀ di p, v.diNumberIndex[di]? = some p → p ∈ v.inodes ∧ (v.heap.obj p).diNumber = di
  null : ∀ di, (v.getByDiNumber env di).1 = NULL ↔ ∀ p ∈ v.inodes, (v.heap.obj p).diNumber ≠ di
  newest : ∀ di, (v.getByDiNumber env di).1 ≠ NULL →
    IsNewestIn env v.heap v.inodes di (v.getByDiNumber env di).1

/-- **The index is never stale where it is used.** -/
theorem indexRight_of_reachable (hv : Reachable env v) : v.IndexRight env := by
  have hinv := hv.invariant
  have hget := fun di => (getByDiNumber_spec hinv.coherent hinv.index di).1
  refine ⟨fun hok di => ?_, fun hok di p hp => ?_, fun di => ?_, fun di hne => ?_⟩
  · rw [Std.TreeMap.mem_iff_isSome_getElem?, hinv.index hok, Option.isSome_iff_ne_none, ne_eq,
      newest_eq_none]
    simp
  · rw [hinv.index hok] at hp
    exact newest_mem hp
  · have hnone : newest env v.heap v.inodes di = none ↔ _ := newest_eq_none
    rw [hget, ← hnone]
    cases hq : newest env v.heap v.inodes di with
    | none => simp
    | some q => simpa using (hinv.live q (newest_mem hq).1).1
  · rw [hget] at hne ⊢
    cases hq : newest env v.heap v.inodes di with
    | none => simp [hq] at hne
    | some q => exact isNewestIn_of_newest hq

/-- A device of two slots with the same number, of which the second one is newer. -/
def sameNumbers : Env :=
  { twoSlots.device with
    data := fun k =>
      if k % 512 = 8 then 0 else if k % 512 = 80 then UInt8.ofNat (k / 512)
      else twoSlots.device.data k }.zeroed

def bothAsked : InodeVector :=
  ((((start true).addBuilt addInode (built sameNumbers 0)).addBuilt addInode
    (built sameNumbers 512)).getByDiNumber sameNumbers 0).2

def newerRemoved : InodeVector :=
  (({ bothAsked with heap := bothAsked.heap.mark 2 }).removeMarked.getByDiNumber sameNumbers 0).2

/-- The answer is the newer one, as long as it is there. -/
theorem indexRight_sameNumbers :
    (bothAsked.IndexRight sameNumbers ∧ (bothAsked.getByDiNumber sameNumbers 0).1 = 2) ∧
      newerRemoved.IndexRight sameNumbers ∧ (newerRemoved.getByDiNumber sameNumbers 0).1 = 1 := by
  have hadd : ∀ {v : InodeVector} {bo : ℕ} {ino : Inode}, Reachable sameNumbers v →
      0 < v.heap.brk → built sameNumbers bo = some ino →
        Reachable sameNumbers (v.addBuilt addInode (built sameNumbers bo)) := by
    intro v bo ino hv hbrk hino
    rw [hino]
    exact (hv.step (.new ino (built_new hino).dinode)).step
      (.addInode v.heap.brk ⟨Nat.pos_iff_ne_zero.mp hbrk, Nat.lt_succ_self _⟩)
  obtain ⟨x, hx⟩ : ∃ ino, built sameNumbers 0 = some ino :=
    Option.isSome_iff_exists.mp (by decide)
  obtain ⟨y, hy⟩ : ∃ ino, built sameNumbers 512 = some ino :=
    Option.isSome_iff_exists.mp (by decide)
  have hboth : Reachable sameNumbers bothAsked :=
    (hadd (hadd (.start true) (by decide) hx) (by decide) hy).step (.getByDiNumber 0)
  have hremoved : Reachable sameNumbers newerRemoved :=
    ((hboth.step (.mark 2)).step .removeMarked).step (.getByDiNumber 0)
  exact ⟨⟨indexRight_of_reachable hboth, by decide +kernel⟩,
    indexRight_of_reachable hremoved, by decide +kernel⟩

end InodeVector

end Jfsrec
