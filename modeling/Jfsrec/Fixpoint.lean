import Jfsrec.Association
import Jfsrec.Ownership

/-!
# The fixpoint of sane-by-association

Both functions of the recoverer together.  What a directory has as its parent,
and what a listing names, is among the inodes at the end unless no inode at all
has that number; numbers that were distinct stay distinct; and whoever is named
by some listing has its parent and its name from one and the same entry.
-/

namespace Jfsrec

open Lib InodeVector

theorem InodeVector.Sound.indexed {env : Env} {v : InodeVector} (hv : v.Sound env)
    (hok : v.diNumberIndexOk = false) (hn : NULL ∉ v.inodes ++ v.invalidatedInodes) :
    v.Indexed env where
  coherent := hv.coherent
  index h := by
    rw [hok] at h
    cases h
  inodes hm := hn (List.mem_append_left _ hm)
  invalidated hm := hn (List.mem_append_right _ hm)

namespace Recoverer

variable {env : Env} {names : Ptr → List InodeName} {v w u : InodeVector}

theorem parentClosure_explored (env : Env) (v : InodeVector) :
    Explored v.heap.number (v.store env) (dotdot v.heap) v.inodes (parentClosure env v).length
      (parentClosure env v) :=
  closure_explored (fun _ _ => store_number) store_mem v.inodes

theorem nameClosure_explored (env : Env) (names : Ptr → List InodeName) (v : InodeVector) :
    Explored v.heap.number (v.store env) (listed names) v.inodes (nameClosure env names v).length
      (nameClosure env names v) :=
  closure_explored (fun _ _ => store_number) store_mem v.inodes

theorem known_of_answered {l : List Ptr} {d : ℕ}
    (h : Answered v.heap.number (v.store env) l d) {q : Ptr} (hq : q ∈ l ++ v.invalidatedInodes)
    (hd : v.heap.number q = d) : d ∈ l.map v.heap.number := by
  rcases List.mem_append.mp hq with hq | hq
  · rw [← hd]
    exact List.mem_map_of_mem hq
  · rcases h with h | h
    · exact h
    · refine absurd ?_ (oldest_eq_none.mp h)
      rw [← hd]
      exact List.mem_map_of_mem hq

theorem lookup_of_nodup (hd : (v.inodes.map v.heap.number).Nodup) {x : Ptr} (hx : x ∈ v.inodes) :
    v.lookup env (v.heap.number x) = some x := by
  cases hl : v.lookup env (v.heap.number x) with
  | none => exact absurd (List.mem_map_of_mem hx) (lookup_eq_none.mp hl)
  | some p =>
    obtain ⟨hp, hnum⟩ := newest_mem hl
    rw [List.inj_on_of_nodup_map hd hp hx hnum]

def finalName (di : ℕ) (n : List Char) : List Char :=
  if di = 2 then "original_root".toList else goodName di n

/-- An inode some listing names is linked as one of the entries for it says. -/
theorem linked_of_named {l : List Ptr} {x : Ptr}
    (hfind : newest env v.heap l (v.heap.number x) = some x)
    (hx : ∃ c ∈ l, ∃ e ∈ names c, e.diNumber = v.heap.number x) :
    ∃ c ∈ l, ∃ e ∈ names c,
      e.diNumber = v.heap.number x ∧ linked env names v l x = (c, e.name) := by
  rw [linked, foldl_assign]
  cases hlast : lastFor (target (newest env v.heap l)) (l.flatMap (claims names)) x with
  | none =>
    obtain ⟨c, hc, e, he, hnum⟩ := hx
    refine absurd ?_ (lastFor_eq_none.mp hlast (c, e)
      (List.mem_flatMap.mpr ⟨c, hc, List.mem_map_of_mem he⟩))
    rw [target, hnum, hfind]
  | some k =>
    obtain ⟨hk, ht⟩ := lastFor_mem hlast
    obtain ⟨c, hc, hk⟩ := List.mem_flatMap.mp hk
    obtain ⟨e, he, rfl⟩ := List.mem_map.mp hk
    exact ⟨c, hc, e, he, (newest_mem ht).2.symm, rfl⟩

/-- After the second function, where numbers are distinct, an inode some listing names
has the directory and the name of one entry for it. -/
theorem linked_of_findFileParentsAndNames {w u : InodeVector} (hrec : Recovering env w u)
    (hnodup : (u.inodes.map u.heap.number).Nodup)
    (hparent : ∀ x, (u.heap.obj x).parent = (linked env names w u.inodes x).1)
    (hname : ∀ x ∈ u.inodes, (u.heap.obj x).name = if u.lookup env 2 = some x then
      "original_root".toList
      else goodName (w.heap.number x) (linked env names w u.inodes x).2)
    {x : Ptr} (hx : x ∈ u.inodes) (hnamed : ∃ c ∈ u.inodes, ∃ e ∈ names c,
      e.diNumber = u.heap.number x) :
    ∃ c ∈ u.inodes, ∃ e ∈ names c, e.diNumber = u.heap.number x ∧
      (u.heap.obj x).parent = c ∧ (u.heap.obj x).name = finalName (u.heap.number x) e.name := by
  have hnum : u.heap.number = w.heap.number := hrec.frame.number
  have hfound : u.lookup env (u.heap.number x) = some x := lookup_of_nodup hnodup hx
  have hself : newest env w.heap u.inodes (w.heap.number x) = some x := by
    rw [← lookup_frame hrec.frame, ← hnum]
    exact hfound
  have htwo : u.lookup env 2 = some x ↔ w.heap.number x = 2 := by
    rw [← hnum]
    constructor
    · intro h
      exact (newest_mem h).2
    · intro h
      rw [← h, hfound]
  rw [hnum] at hnamed ⊢
  obtain ⟨c, hc, e, he, hnumx, hlinked⟩ := linked_of_named hself hnamed
  refine ⟨c, hc, e, he, hnumx, by rw [hparent, hlinked], ?_⟩
  rw [hname x hx, hlinked, finalName]
  exact if_congr htwo rfl rfl

/-- **Sane-by-association reaches a fixpoint.** -/
theorem association_fixpoint (names : Ptr → List InodeName) (hv : v.Indexed env)
    (hdistinct : (v.inodes.map v.heap.number).Nodup) :
    ∃ w u, findDirectoryParents env v = some w ∧
      findFileParentsAndNames env names w = some u ∧
      (u.inodes.map u.heap.number).Nodup ∧
      (∀ c ∈ w.inodes, w.heap.isDir c → ∀ q ∈ u.inodes ++ u.invalidatedInodes,
        u.heap.number q = (w.heap.obj c).parentDiNumber →
        (w.heap.obj c).parentDiNumber ∈ u.inodes.map u.heap.number) ∧
      (∀ c ∈ u.inodes, ∀ e ∈ names c, ∀ q ∈ u.inodes ++ u.invalidatedInodes,
        u.heap.number q = e.diNumber → e.diNumber ∈ u.inodes.map u.heap.number) ∧
      ∀ x ∈ u.inodes, (∃ c ∈ u.inodes, ∃ e ∈ names c, e.diNumber = u.heap.number x) →
        ∃ c ∈ u.inodes, ∃ e ∈ names c, e.diNumber = u.heap.number x ∧
          (u.heap.obj x).parent = c ∧
          (u.heap.obj x).name = finalName (u.heap.number x) e.name := by
  obtain ⟨w, hw, hwrec, hwin⟩ := findDirectoryParents_spec hv
  obtain ⟨u, hu, hurec, huin, hparent, hname⟩ := findFileParentsAndNames_spec names hwrec.indexed
  have hfirst := parentClosure_explored env v
  have hsecond := nameClosure_explored env names w
  rw [← hwin] at hfirst
  rw [← huin] at hsecond
  have hnum : u.heap.number = w.heap.number := hurec.frame.number
  have hnumv : w.heap.number = v.heap.number := hwrec.frame.number
  have hnodup : (u.inodes.map u.heap.number).Nodup := by
    rw [hnum]
    apply hsecond.grown.nodup
    rw [hnumv]
    exact hfirst.grown.nodup hdistinct
  refine ⟨w, u, hw, hu, hnodup, fun c hc hdir q hq hqd => ?_, fun c hc e he q hq hqd => ?_,
    fun x hx hnamed => ?_⟩
  · -- asked for in the first loop, and still answered after the second
    have hdot : (w.heap.obj c).parentDiNumber ∈ dotdot v.heap c := by
      rw [← dotdot_frame hwrec.frame, dotdot, if_pos hdir]
      exact List.mem_singleton_self _
    have hans := hfirst.answered_all c hc _ hdot
    rw [← hnumv, ← hwrec.store] at hans
    rw [hnum] at hqd ⊢
    rw [hurec.invalidated] at hq
    exact known_of_answered (hans.mono hsecond.grown) hq hqd
  · have hans := hsecond.answered_all c hc e.diNumber (List.mem_map_of_mem he)
    rw [hnum] at hqd ⊢
    rw [hurec.invalidated] at hq
    exact known_of_answered hans hq hqd
  · exact linked_of_findFileParentsAndNames hurec hnodup hparent hname hx hnamed

/-! ### An example -/

/-- A device of two directories, number 3 and number 4, each in the other. -/
def twoDirs : Env :=
  Device.zeroed
    { blocksize := .b512
      isBlk := true
      stSize := 1024
      data := fun k =>
        if k % 512 = 4 then 16 else if k % 512 = 8 then UInt8.ofNat (3 + k / 512)
        else if k % 512 = 16 then 4 else if k % 512 = 40 then 1
        else if k % 512 = 53 then 0x40 else if k % 512 = 244 then UInt8.ofNat (4 - k / 512) else 0
      stSize_lt := by decide }

/-- Directory 3, where directory 4 was invalidated. -/
def severed : InodeVector :=
  ((start false).addBuilt addInode (built twoDirs 0)).addBuilt pushInvalidated (built twoDirs 512)

def severedNames (p : Ptr) : List InodeName := if p = 2 then [⟨['a'], 3⟩] else []

theorem indexed_severed : severed.Indexed twoDirs := by
  have hone := (sound_start twoDirs false).step
    (.addInode (built twoDirs 0) (fun ino hino => built_new hino))
  have htwo := hone.step (.pushInvalidated (built twoDirs 512) (fun ino hino => built_new hino))
  exact htwo.indexed (by decide) (by decide)

theorem severed_associated :
    ∃ w u, findDirectoryParents twoDirs severed = some w ∧
      findFileParentsAndNames twoDirs severedNames w = some u ∧
      (u.inodes.map u.heap.number).Nodup := by
  obtain ⟨w, u, hw, hu, hnodup, _⟩ :=
    association_fixpoint severedNames indexed_severed (by decide)
  exact ⟨w, u, hw, hu, hnodup⟩

end Recoverer

end Jfsrec
