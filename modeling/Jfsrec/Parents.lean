import Jfsrec.Ancestry

/-!
# What becomes a parent

Only a `DirInode` lists names, so the second loop of the recoverer makes
directories parents.  The first loop makes a parent of whatever the `idotdot`
of a directory finds, unless that is a `FileInode` that was there before:
`parentsAreDirs_iff` says when this leaves directories only.
-/

namespace Jfsrec

open Lib InodeVector

namespace Recoverer

variable {env : Env} {v : InodeVector}

/-- `extract_inode_names` of an inode, which only `DirInode` overrides. -/
def listing (h : Heap) (dirNames : Ptr → List InodeName) (p : Ptr) : List InodeName :=
  if h.isDir p then dirNames p else []

theorem isDir_of_mem_listing {h : Heap} {dirNames : Ptr → List InodeName} {p : Ptr}
    {e : InodeName} (he : e ∈ listing h dirNames p) : h.isDir p := by
  by_contra hd
  rw [listing, if_neg hd] at he
  cases he

def Unlisted (env : Env) (names : Ptr → List InodeName) (v : InodeVector) (x : Ptr) : Prop :=
  ∀ c ∈ recovered env names v, ∀ e ∈ names c,
    newest env v.heap (recovered env names v) e.diNumber ≠ some x

theorem unlisted_iff {names : Ptr → List InodeName} {x : Ptr} :
    Unlisted env names v x ↔ lastFor (target (newest env v.heap (recovered env names v)))
      ((recovered env names v).flatMap (claims names)) x = none := by
  rw [lastFor_eq_none]
  constructor
  · intro h k hk
    obtain ⟨c, hc, hk⟩ := List.mem_flatMap.mp hk
    obtain ⟨e, he, rfl⟩ := List.mem_map.mp hk
    exact h c hc e he
  · intro h c hc e he
    exact h (c, e) (List.mem_flatMap.mpr ⟨c, hc, List.mem_map_of_mem he⟩)

/-- A claimant is a directory that lists the inode, or what an unlisted inode
adopted. -/
theorem claimant_cases {names : Ptr → List InodeName} {x p : Ptr}
    (hc : claimant env names v x = some p) :
    (∃ e ∈ names p, newest env v.heap (recovered env names v) e.diNumber = some x) ∨
      (Unlisted env names v x ∧ x ∈ parentClosure env v ∧
        adopted env v (parentClosure env v) x = some p) := by
  unfold claimant at hc
  split at hc
  · rename_i c hlast
    obtain ⟨hmem, hfind⟩ := lastFor_mem hlast
    obtain ⟨dir, _, hmem⟩ := List.mem_flatMap.mp hmem
    obtain ⟨e, he, rfl⟩ := List.mem_map.mp hmem
    obtain rfl : dir = p := Option.some.inj hc
    exact Or.inl ⟨e, he, hfind⟩
  · rename_i hlast
    split at hc
    · rename_i hx
      exact Or.inr ⟨unlisted_iff.mpr hlast, hx, hc⟩
    · cases hc

theorem claimant_of_unlisted {names : Ptr → List InodeName} {x : Ptr}
    (hun : Unlisted env names v x) (hx : x ∈ parentClosure env v) :
    claimant env names v x = adopted env v (parentClosure env v) x := by
  unfold claimant
  rw [unlisted_iff.mp hun]
  exact if_pos hx

/-- After both functions every parent is a directory, and so is every inode that the
path of another one passes through. -/
def ParentsAreDirs (env : Env) (names : Ptr → List InodeName) (v : InodeVector) : Prop :=
  ∃ w u, findDirectoryParents env v = some w ∧ findFileParentsAndNames env names w = some u ∧
    (∀ x ∈ u.inodes, (u.heap.obj x).parent = NULL ∨ u.heap.isDir (u.heap.obj x).parent) ∧
    ∀ x ∈ u.inodes, ∀ p, Relation.TransGen (fun a b => u.heap.parentOf a = some b) x p →
      u.heap.isDir p

theorem isDir_of_ancestor {l : List Ptr} {h : Heap}
    (hclosed : ∀ x ∈ l, ∀ p, h.parentOf x = some p → p ∈ l ∧ h.isDir p) {x p : Ptr} (hx : x ∈ l)
    (hp : Relation.TransGen (fun a b => h.parentOf a = some b) x p) : p ∈ l ∧ h.isDir p := by
  induction hp with
  | single hp => exact hclosed x hx _ hp
  | tail _ hp ih => exact hclosed _ ih.1 _ hp

/-- **Parents are directories exactly if what an unlisted directory adopts is one.** -/
theorem parentsAreDirs_iff (dirNames : Ptr → List InodeName) (hv : v.Indexed env)
    (hunlinked : ∀ p, (v.heap.obj p).parent = NULL) :
    ParentsAreDirs env (listing v.heap dirNames) v ↔
      ∀ x ∈ parentClosure env v, Unlisted env (listing v.heap dirNames) v x →
        ∀ p, adopted env v (parentClosure env v) x = some p → v.heap.isDir p := by
  obtain ⟨w, u, hw, hu, hin, hparent⟩ :=
    parentOf_recovered (listing v.heap dirNames) hv hunlinked
  obtain ⟨hwrec, hurec, _⟩ := recovering_of_run hv hw hu
  have hdirs : ∀ p, u.heap.isDir p ↔ v.heap.isDir p := by
    intro p
    rw [Heap.isDir, Heap.isDir, hurec.frame.kind, hwrec.frame.kind]
  constructor
  · rintro ⟨w', u', hw', hu', hdir, _⟩ x hx hun p hp
    obtain rfl := Option.some.inj (hw.symm.trans hw')
    obtain rfl := Option.some.inj (hu.symm.trans hu')
    have hpar : u.heap.parentOf x = some p := by
      rw [hparent, claimant_of_unlisted hun hx, hp]
    have hxu : x ∈ u.inodes := by
      rw [hin]
      exact subset_recovered hx
    obtain ⟨hne, rfl⟩ := Heap.parentOf_eq_some.mp hpar
    exact (hdirs _).mp ((hdir x hxu).resolve_left hne)
  · intro h
    have hclosed : ∀ x ∈ u.inodes, ∀ p, u.heap.parentOf x = some p →
        p ∈ u.inodes ∧ u.heap.isDir p := by
      intro x _ p hp
      rw [hparent] at hp
      refine ⟨by rw [hin]; exact mem_of_claimant hp, (hdirs p).mpr ?_⟩
      rcases claimant_cases hp with ⟨e, he, _⟩ | ⟨hun, hx, hadopt⟩
      · exact isDir_of_mem_listing he
      · exact h x hx hun p hadopt
    refine ⟨w, u, hw, hu, fun x hx => ?_, fun x hx p hp => (isDir_of_ancestor hclosed hx hp).2⟩
    by_cases hn : (u.heap.obj x).parent = NULL
    · exact Or.inl hn
    · exact Or.inr (hclosed x hx _ (if_neg hn)).2

theorem parentsAreDirs_eachOther :
    ParentsAreDirs twoDirs (listing eachOther.heap (fun _ => [])) eachOther := by
  refine (parentsAreDirs_iff _ indexed_eachOther sound_eachOther.unlinked).mpr ?_
  intro x _ _ p hp
  have hdirs : ∀ q ∈ parentClosure twoDirs eachOther, eachOther.heap.isDir q := by decide
  exact hdirs p (mem_of_adopted hp)

/-- Directory 3, and the symbolic link that it takes for its parent. -/
def dirAndLink : Env :=
  Device.zeroed
    { twoDirs.device with data := fun k => if k = 565 then 0xA0 else twoDirs.device.data k }

def underLink : InodeVector :=
  ((start false).addBuilt addInode (built dirAndLink 0)).addBuilt addInode (built dirAndLink 512)

/-- **A symbolic link becomes a parent.** -/
theorem not_parentsAreDirs_underLink :
    ¬ ParentsAreDirs dirAndLink (listing underLink.heap (fun _ => [])) underLink := by
  have hsound : underLink.Sound dirAndLink :=
    ((sound_start dirAndLink false).step
      (.addInode (built dirAndLink 0) (fun ino hino => built_new hino))).step
      (.addInode (built dirAndLink 512) (fun ino hino => built_new hino))
  intro h
  have hdirs := (parentsAreDirs_iff _ (hsound.indexed (by decide) (by decide))
    hsound.unlinked).mp h
  have hun : Unlisted dirAndLink (listing underLink.heap (fun _ => [])) underLink 1 := by
    intro c _ e he
    unfold listing at he
    split at he <;> cases he
  exact absurd (hdirs 1 (by decide) hun 2 (by decide)) (by decide)

end Recoverer

end Jfsrec
