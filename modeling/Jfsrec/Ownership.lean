import Jfsrec.Positions

/-!
# Ownership

The destructor of `InodeVector` carries a loop that deletes the members of both
lists, commented out because it crashed.  Deleting is safe while no address
occurs twice in the two lists together, `SingleOwner`.

`ScanStep` collects what `scan()` does to the vector, and `Sound` is what all of
it preserves: as long as only the scanner works on the vector there is a single
owner, because addresses come from `new` and move from one list to the other.
-/

namespace Jfsrec

namespace InodeVector

variable {env : Env} {v w : InodeVector}

/-- The addresses that `~InodeVector` would delete. -/
def owned (v : InodeVector) : List Ptr := (v.inodes ++ v.invalidatedInodes).filter (· ≠ NULL)

def SingleOwner (v : InodeVector) : Prop := v.owned.Nodup

instance (v : InodeVector) : Decidable v.SingleOwner := inferInstanceAs (Decidable (List.Nodup _))

/-- What the scanner does to the vector: it pushes what the factory returned,
writes marks, caches and the index, and removes. -/
inductive ScanStep (env : Env) (v : InodeVector) : InodeVector → Prop
  | addInode (o : Option Inode) (ho : ∀ ino ∈ o, ino.New) :
      ScanStep env v (v.addBuilt addInode o)
  | pushInode (o : Option Inode) (ho : ∀ ino ∈ o, ino.New) :
      ScanStep env v (v.addBuilt pushInode o)
  | pushInvalidated (o : Option Inode) (ho : ∀ ino ∈ o, ino.New) :
      ScanStep env v (v.addBuilt pushInvalidated o)
  | scratch (h : Heap) (hs : Heap.Same env v.heap h) : ScanStep env v { v with heap := h }
  | index (m : Std.TreeMap ℕ Ptr) (ok : Bool) :
      ScanStep env v { v with diNumberIndex := m, diNumberIndexOk := ok }
  | removeWhere (out : Inode → Bool) : ScanStep env v (v.removeWhere out)

def ScanSteps (env : Env) : InodeVector → InodeVector → Prop :=
  Relation.ReflTransGen (ScanStep env)

structure Sound (env : Env) (v : InodeVector) : Prop where
  brk : 0 < v.heap.brk
  coherent : v.heap.Coherent env
  bound : ∀ p ∈ v.owned, p < v.heap.brk
  single : v.SingleOwner
  /-- no inode has a parent yet -/
  unlinked : ∀ p, (v.heap.obj p).parent = NULL

theorem owned_push {push : InodeVector → Ptr → InodeVector} {sel oth : InodeVector → List Ptr}
    (hp : Pushes push sel oth)
    (hboth : ∀ v : InodeVector, (v.inodes ++ v.invalidatedInodes).Perm (sel v ++ oth v))
    (h : Heap) (p : Ptr) :
    (push { v with heap := h } p).owned.Perm ([p].filter (· ≠ NULL) ++ v.owned) := by
  have hafter := hboth (push { v with heap := h } p)
  rw [hp.sel_push, hp.oth_push, hp.sel_heap, hp.oth_heap, List.append_assoc] at hafter
  have hbefore : (sel v ++ ([p] ++ oth v)).Perm ([p] ++ (v.inodes ++ v.invalidatedInodes)) :=
    (List.perm_append_comm_assoc _ _ _).trans (List.Perm.append_left _ (hboth v).symm)
  rw [owned, owned, ← List.filter_append]
  exact (hafter.trans hbefore).filter _

theorem Sound.addBuilt {push : InodeVector → Ptr → InodeVector} {sel oth : InodeVector → List Ptr}
    (hp : Pushes push sel oth)
    (hboth : ∀ v : InodeVector, (v.inodes ++ v.invalidatedInodes).Perm (sel v ++ oth v))
    (hv : v.Sound env) {o : Option Inode} (ho : ∀ ino ∈ o, ino.New) :
    (v.addBuilt push o).Sound env := by
  cases o with
  | none =>
    have hperm : (push v NULL).owned.Perm ([NULL].filter (· ≠ NULL) ++ v.owned) :=
      owned_push hp hboth v.heap NULL
    rw [List.filter_cons_of_neg (by simp), List.filter_nil, List.nil_append] at hperm
    refine ⟨?_, ?_, ?_, hperm.nodup_iff.mpr hv.single, ?_⟩
    · rw [InodeVector.addBuilt, hp.heap]
      exact hv.brk
    · rw [InodeVector.addBuilt, hp.heap]
      exact hv.coherent
    · intro p hm
      rw [InodeVector.addBuilt, hp.heap]
      exact hv.bound p (hperm.subset hm)
    · rw [InodeVector.addBuilt, hp.heap]
      exact hv.unlinked
  | some ino =>
    have hnull : v.heap.brk ≠ NULL := Nat.ne_of_gt hv.brk
    have hperm : (v.addBuilt push (some ino)).owned.Perm
        ([v.heap.brk].filter (· ≠ NULL) ++ v.owned) :=
      owned_push hp hboth (v.heap.alloc ino) v.heap.brk
    rw [List.filter_cons_of_pos (by simpa using hnull), List.filter_nil,
      List.singleton_append] at hperm
    refine ⟨?_, ?_, ?_, hperm.nodup_iff.mpr (List.nodup_cons.mpr ⟨fun hm => ?_, hv.single⟩), ?_⟩
    · rw [InodeVector.addBuilt, hp.heap]
      exact Nat.succ_pos _
    · rw [InodeVector.addBuilt, hp.heap]
      exact hv.coherent.alloc (ho ino rfl).dinode
    · intro p hm
      rw [InodeVector.addBuilt, hp.heap]
      rcases List.mem_cons.mp (hperm.subset hm) with rfl | hm
      · exact Nat.lt_succ_self _
      · exact Nat.lt_succ_of_lt (hv.bound p hm)
    · exact absurd (hv.bound _ hm) (lt_irrefl _)
    · intro q
      rw [InodeVector.addBuilt, hp.heap]
      show ((v.heap.alloc ino).obj q).parent = NULL
      rw [Heap.alloc_obj]
      split
      · exact (ho ino rfl).parent
      · exact hv.unlinked q

/-- What is removed from one list is appended to the other. -/
theorem owned_removeWhere (out : Inode → Bool) (v : InodeVector) :
    (v.removeWhere out).owned.Perm v.owned := by
  have hmoved : (v.inodes.filter (fun p => !out (v.heap.obj p)) ++ (v.invalidatedInodes ++
      v.inodes.filter (fun p => out (v.heap.obj p)))).Perm (v.inodes ++ v.invalidatedInodes) := by
    refine (List.perm_append_comm_assoc _ _ _).trans ?_
    refine (List.Perm.append_left _ ?_).trans List.perm_append_comm
    exact List.perm_append_comm.trans (List.filter_append_perm _ _)
  rw [owned, owned, removeWhere_inodes_filter, removeWhere_inv, List.filter_append,
    List.filter_filter]
  simp only [Bool.and_self]
  rw [← List.filter_append]
  exact hmoved.filter _

/-- **Whatever the scanner does, every address has one owner.** -/
theorem Sound.step (hv : v.Sound env) (h : ScanStep env v w) : w.Sound env := by
  cases h with
  | addInode o ho => exact hv.addBuilt pushes_addInode (fun _ => .refl _) ho
  | pushInode o ho => exact hv.addBuilt pushes_pushInode (fun _ => .refl _) ho
  | pushInvalidated o ho =>
    exact hv.addBuilt pushes_pushInvalidated (fun _ => List.perm_append_comm) ho
  | scratch h hs =>
    refine ⟨?_, hs.coherent hv.coherent, fun p hp => ?_, hv.single, fun p => ?_⟩
    · show 0 < h.brk
      rw [hs.brk]
      exact hv.brk
    · show p < h.brk
      rw [hs.brk]
      exact hv.bound p hp
    · rw [hs.parent]
      exact hv.unlinked p
  | index m ok => exact ⟨hv.brk, hv.coherent, hv.bound, hv.single, hv.unlinked⟩
  | removeWhere out =>
    have hperm := owned_removeWhere out v
    exact ⟨hv.brk, hv.coherent, fun p hp => hv.bound p (hperm.subset hp),
      hperm.nodup_iff.mpr hv.single, hv.unlinked⟩

theorem Sound.steps (hv : v.Sound env) (h : ScanSteps env v w) : w.Sound env := by
  induction h with
  | refl => exact hv
  | tail _ hs ih => exact ih.step hs

theorem sound_start (env : Env) (ok : Bool) : (start ok).Sound env where
  brk := Nat.one_pos
  coherent p d hd := by cases hd
  bound p hp := by cases hp
  single := List.nodup_nil
  unlinked _ := rfl

/-! ### Runs of pushes -/

theorem scanSteps_foldl {push : InodeVector → Ptr → InodeVector}
    (hstep : ∀ (v : InodeVector) (o : Option Inode), (∀ ino ∈ o, ino.New) →
      ScanStep env v (v.addBuilt push o)) (os : List (Option Inode)) (v : InodeVector)
    (hos : ∀ o ∈ os, ∀ ino ∈ o, ino.New) :
    ScanSteps env v (os.foldl (addBuilt push) v) := by
  induction os generalizing v with
  | nil => exact .refl
  | cons o os ih =>
    exact .head (hstep v o (hos o (by simp)))
      (ih (v.addBuilt push o) (fun o' ho' => hos o' (List.mem_cons_of_mem o ho')))

theorem scanSteps_loaded (ns ms : List ℕ) (v : InodeVector) :
    ScanSteps env v (loaded env ns ms v) := by
  have hbuilt : ∀ (ks : List ℕ), ∀ o ∈ ks.map (built env), ∀ ino ∈ o, ino.New := by
    intro ks o ho ino hino
    obtain ⟨k, _, rfl⟩ := List.mem_map.mp ho
    exact built_new hino
  have h1 : ScanSteps env v ((ns.map (built env)).foldl (addBuilt InodeVector.pushInode) v) :=
    scanSteps_foldl (fun _ o => .pushInode o) _ v (hbuilt ns)
  have h2 : ScanSteps env _ ((ms.map (built env)).foldl (addBuilt InodeVector.pushInvalidated) _) :=
    scanSteps_foldl (fun _ o => .pushInvalidated o) _
      ((ns.map (built env)).foldl (addBuilt InodeVector.pushInode) v) (hbuilt ms)
  exact (h1.trans h2).tail (.index _ false)

end InodeVector

end Jfsrec
