import Jfsrec.Ancestry
import Mathlib.Data.List.Destutter
import Mathlib.Data.List.Sort

/-!
# Roots

`Inode::get_root` climbs from parent to parent with a list of the inodes it has
seen, so that it stops on a cycle too; `find_roots` collects what it returns for all
inodes, and `sort` and `unique` leave one copy of each.

Without cycles it stops where `get_full_path` does, `getRoot_of_ends`, and the roots
are the inodes without a parent and those that are their own, `mem_findRoots`.
-/

namespace Jfsrec

open Lib InodeVector

namespace Recoverer

variable {legal : List Char → Bool} {v : InodeVector} {h : Heap} {p r : Ptr} {fuel : ℕ}

/-! ### get_root and find_roots -/

/-- `get_root`, with the vector `p` of the source as the list of what was seen. -/
def getRoot (fuel : ℕ) (h : Heap) (p : Ptr) : Option Ptr := climb h.parentOf fuel [p] p

def hasParent (h : Heap) (p : Ptr) : Bool := (h.obj p).parent ≠ NULL || (h.obj p).parent == p

def rootOf (fuel : ℕ) (h : Heap) (p : Ptr) : Option Ptr :=
  if hasParent h p then getRoot fuel h p else some p

/-- `find_roots`, which appends to `roots_`; `none` when a call of `get_root` does not return.
`unique` drops what equals the element before it. -/
def findRoots (fuel : ℕ) (v : InodeVector) (roots : List Ptr) : Option (List Ptr) :=
  (v.inodes.mapM (rootOf fuel v.heap)).map
    (fun r => roots ++ (r.mergeSort (· ≤ ·)).destutter (· ≠ ·))

/-- The inode at which the calls of `get_full_path` for `p` stop to climb. -/
inductive FullPathEnds (h : Heap) : Ptr → Ptr → Prop
  | stop {p : Ptr} (hp : (h.obj p).parent = NULL ∨ (h.obj p).parent = p) : FullPathEnds h p p
  | call {p r : Ptr} (hp : ¬ ((h.obj p).parent = NULL ∨ (h.obj p).parent = p))
      (hr : FullPathEnds h (h.obj p).parent r) : FullPathEnds h p r

def ParentsInside (v : InodeVector) : Prop :=
  ∀ p ∈ v.inodes, ∀ q, v.heap.parentOf p = some q → q ∈ v.inodes

/-- No inode is above itself, other than by being its own parent. -/
def Acyclic (v : InodeVector) : Prop :=
  ¬ ∃ p ∈ v.inodes, Relation.TransGen (Link v.heap.parentOf) p p

/-! ### Where the calls of `get_full_path` stop -/

theorem link_of_not_root (hp : ¬ ((h.obj p).parent = NULL ∨ (h.obj p).parent = p)) :
    Link h.parentOf p (h.obj p).parent :=
  ⟨if_neg (fun hn => hp (Or.inl hn)), fun he => hp (Or.inr he.symm)⟩

theorem FullPathEnds.endsAt (he : FullPathEnds h p r) : EndsAt h.parentOf p r := by
  induction he with
  | stop hp => exact ⟨.refl, Heap.root_iff.mp hp⟩
  | call hp _ ih => exact endsAt_link (link_of_not_root hp) ih

theorem FullPathEnds.of_endsAt (he : EndsAt h.parentOf p r) : FullPathEnds h p r := by
  obtain ⟨hreach, hr⟩ := he
  induction hreach using Relation.ReflTransGen.head_induction_on with
  | refl => exact .stop (Heap.root_iff.mpr hr)
  | head hlink _ ih =>
    obtain ⟨hsome, hne⟩ := hlink
    obtain ⟨hnull, rfl⟩ := Heap.parentOf_eq_some.mp hsome
    exact .call (fun hroot => hroot.elim hnull (fun hself => hne hself.symm)) ih

theorem FullPathEnds.root (he : FullPathEnds h p r) :
    (h.obj r).parent = NULL ∨ (h.obj r).parent = r :=
  Heap.root_iff.mpr he.endsAt.2

theorem head_fullPathOnce {f : Ptr → Option Ptr}
    {parentPath : Ptr → Heap → Option (Option Path × Heap)}
    (hparent : ∀ {b : Ptr} {h h' : Heap} {path : Option Path}, h.parentOf = f →
      parentPath b h = some (path, h') → h'.parentOf = f ∧
        ∀ r dir, EndsAt f b r → path = some dir → dir.head? = some (h'.obj r).name)
    {h h' : Heap} {path : Option Path} (hf : h.parentOf = f)
    (hr : fullPathOnce legal parentPath p h = some (path, h')) :
    h'.parentOf = f ∧
      ∀ r dir, EndsAt f p r → path = some dir → dir.head? = some (h'.obj r).name := by
  unfold fullPathOnce at hr
  by_cases hroot : (h.obj p).parent = NULL ∨ (h.obj p).parent = p
  · rw [if_pos hroot] at hr
    obtain ⟨rfl, rfl⟩ := Prod.mk.inj (Option.some.inj hr)
    refine ⟨hf, fun r dir he hdir => ?_⟩
    -- the call stops here, and its own name comes first
    have hrp : r = p := by
      subst hf
      rcases Relation.ReflTransGen.cases_head he.1 with rfl | ⟨c, hc, _⟩
      · rfl
      · exact absurd hc (not_link_of_end (Heap.root_iff.mp hroot))
    subst hrp
    split_ifs at hdir with hlegal
    rw [← Option.some.inj hdir]
    rfl
  · rw [if_neg hroot] at hr
    have hlink := link_of_not_root hroot
    rw [hf] at hlink
    rcases hcall : parentPath (h.obj p).parent h with _ | ⟨_ | dir, h₁⟩
    · rw [hcall] at hr
      cases hr
    · rw [hcall] at hr
      obtain ⟨rfl, rfl⟩ := Prod.mk.inj (Option.some.inj hr)
      exact ⟨(hparent hf hcall).1, fun _ _ _ hdir => by cases hdir⟩
    · rw [hcall] at hr
      obtain ⟨rfl, rfl⟩ := Prod.mk.inj (Option.some.inj hr)
      obtain ⟨hf', hhead⟩ := hparent hf hcall
      refine ⟨hf', fun r path he hpath => ?_⟩
      have hdir := hhead r dir (he.of_link hlink) rfl
      split_ifs at hpath with hlegal
      rw [← Option.some.inj hpath, List.head?_append, hdir]
      rfl

/-- **A path begins with the name of the inode at which the calls stop.** -/
theorem head_getFullPath {f : Ptr → Option Ptr} (fuel : ℕ) :
    ∀ {p : Ptr} {h h' : Heap} {path : Option Path}, h.parentOf = f →
      getFullPath legal fuel p h = some (path, h') → h'.parentOf = f ∧
        ∀ r dir, EndsAt f p r → path = some dir → dir.head? = some (h'.obj r).name := by
  induction fuel with
  | zero => intro p h h' path _ hr; cases hr
  | succ fuel ih =>
    intro p h h' path hf hr
    unfold getFullPath at hr
    split at hr
    · rename_i h₁ honce
      obtain ⟨hf₁, _⟩ := head_fullPathOnce (fun hf hr => ih hf hr) hf honce
      exact head_fullPathOnce (fun hf hr => ih hf hr) (by rw [parentOf_setName, hf₁]) hr
    · exact head_fullPathOnce (fun hf hr => ih hf hr) hf hr

/-! ### The roots -/

theorem getRoot_isSome (hclosed : ParentsInside v) (hp : p ∈ v.inodes)
    (hfuel : v.inodes.length ≤ fuel) : (getRoot fuel v.heap p).isSome :=
  climb_isSome hclosed fuel (List.nodup_singleton p) (by simpa using hp) hp
    (by rw [List.length_singleton]; omega)

theorem getRoot_of_ends (he : Ends h.parentOf p) (hr : getRoot fuel h p = some r) :
    FullPathEnds h p r :=
  .of_endsAt (climb_of_ends he (List.mem_singleton_self p)
    (fun _ hx => List.mem_singleton.mp hx ▸ .refl) hr)

theorem mem_of_reaches (hclosed : ParentsInside v) (hp : p ∈ v.inodes)
    (hr : Relation.ReflTransGen (fun a b => v.heap.parentOf a = some b) p r) : r ∈ v.inodes := by
  induction hr with
  | refl => exact hp
  | tail _ hlink ih => exact hclosed _ ih _ hlink

theorem parent_of_not_hasParent (hp : ¬ hasParent h p = true) : (h.obj p).parent = NULL := by
  simp only [hasParent, Bool.or_eq_true, decide_eq_true_eq, not_or, not_not] at hp
  exact hp.1

theorem rootOf_of_root (hp : (h.obj p).parent = NULL ∨ (h.obj p).parent = p) :
    rootOf (fuel + 1) h p = some p := by
  unfold rootOf getRoot climb
  split_ifs
  · rcases Heap.root_iff.mp hp with hnone | hself
    · rw [hnone]
    · rw [hself]
      exact if_pos (List.mem_singleton_self p)
  · rfl

/-- Without cycles every inode has a root, where the calls of `get_full_path` stop. -/
theorem rootOf_spec (hclosed : ParentsInside v) (hacyclic : Acyclic v) (hp : p ∈ v.inodes)
    (hfuel : v.inodes.length ≤ fuel) :
    ∃ r, rootOf fuel v.heap p = some r ∧ r ∈ v.inodes ∧ FullPathEnds v.heap p r := by
  obtain ⟨r, hr⟩ := Option.isSome_iff_exists.mp (getRoot_isSome hclosed hp hfuel)
  unfold rootOf
  split_ifs with hhas
  · exact ⟨r, hr, mem_of_reaches hclosed hp (climb_reaches hr),
      getRoot_of_ends ((forall_ends_iff hclosed).mpr hacyclic p hp) hr⟩
  · exact ⟨p, rfl, hp, .stop (Or.inl (parent_of_not_hasParent hhas))⟩

theorem mem_sortUnique {l : List Ptr} {x : Ptr} :
    x ∈ (l.mergeSort (· ≤ ·)).destutter (· ≠ ·) ↔ x ∈ l := by
  rw [(l.pairwise_mergeSort' (· ≤ ·)).destutter_eq_dedup, List.mem_dedup, List.mem_mergeSort]

theorem nodup_sortUnique (l : List Ptr) :
    ((l.mergeSort (· ≤ ·)).destutter (· ≠ ·)).Nodup := by
  rw [(l.pairwise_mergeSort' (· ≤ ·)).destutter_eq_dedup]
  exact List.nodup_dedup _

theorem mem_mapM {f : Ptr → Option Ptr} {l r : List Ptr} (h : l.mapM f = some r) (y : Ptr) :
    y ∈ r ↔ ∃ x ∈ l, f x = some y := by
  induction l generalizing r with
  | nil =>
    obtain rfl := Option.some.inj h
    simp
  | cons a l ih =>
    simp only [List.mapM_cons, Option.bind_eq_bind, Option.bind_eq_some_iff] at h
    obtain ⟨b, hb, bs, hbs, hr⟩ := h
    obtain rfl := Option.some.inj hr
    rw [List.mem_cons, ih hbs, List.exists_mem_cons_iff, hb, Option.some.injEq, eq_comm]

theorem exists_mapM {f : Ptr → Option Ptr} {l : List Ptr} (h : ∀ x ∈ l, ∃ y, f x = some y) :
    ∃ r, l.mapM f = some r := by
  induction l with
  | nil => exact ⟨[], rfl⟩
  | cons a l ih =>
    rw [List.forall_mem_cons] at h
    obtain ⟨b, hb⟩ := h.1
    obtain ⟨r, hr⟩ := ih h.2
    exact ⟨b :: r, by rw [List.mapM_cons, hb, hr]; rfl⟩

/-- **The roots are the inodes without a parent and those that are their own**, once each. -/
theorem mem_findRoots (hclosed : ParentsInside v) (hacyclic : Acyclic v)
    (hfuel : v.inodes.length < fuel) : ∃ roots, findRoots fuel v [] = some roots ∧ roots.Nodup ∧
      ∀ r, r ∈ roots ↔
        r ∈ v.inodes ∧ ((v.heap.obj r).parent = NULL ∨ (v.heap.obj r).parent = r) := by
  have hroot : ∀ p ∈ v.inodes,
      ∃ r, rootOf fuel v.heap p = some r ∧ r ∈ v.inodes ∧ FullPathEnds v.heap p r :=
    fun p hp => rootOf_spec hclosed hacyclic hp hfuel.le
  obtain ⟨rs, hrs⟩ := exists_mapM (fun p hp => (hroot p hp).imp (fun _ h => h.1))
  refine ⟨_, by rw [findRoots, hrs]; rfl, nodup_sortUnique rs, fun r => ?_⟩
  rw [mem_sortUnique, mem_mapM hrs]
  constructor
  · rintro ⟨p, hp, hr⟩
    obtain ⟨r', hr', hmem, hends⟩ := hroot p hp
    obtain rfl := Option.some.inj (hr'.symm.trans hr)
    exact ⟨hmem, hends.root⟩
  · rintro ⟨hmem, hr⟩
    obtain ⟨k, rfl⟩ : ∃ k, fuel = k + 1 := ⟨fuel - 1, by omega⟩
    exact ⟨r, hmem, rootOf_of_root hr⟩

/-- **Root finding**: `get_root` returns for every inode, and without cycles it and `find_roots`
agree with the paths. -/
theorem getRoot_findRoots (v : InodeVector) (hclosed : ParentsInside v) :
    (∀ p ∈ v.inodes, ∃ r, (∀ fuel, v.inodes.length ≤ fuel → getRoot fuel v.heap p = some r) ∧
      Relation.ReflTransGen (fun a b => v.heap.parentOf a = some b) p r) ∧
    (Acyclic v →
      (∀ p ∈ v.inodes, ∃ r,
        (∀ fuel, v.inodes.length ≤ fuel → getRoot fuel v.heap p = some r) ∧
        ((v.heap.obj r).parent = NULL ∨ (v.heap.obj r).parent = r) ∧
        FullPathEnds v.heap p r ∧
        ∀ legal, (∃ fuel, (getFullPath legal fuel p v.heap).isSome) ∧
          ∀ fuel path h', getFullPath legal fuel p v.heap = some (some path, h') →
            path.head? = some (h'.obj r).name) ∧
      ∀ fuel, v.inodes.length < fuel → ∃ roots, findRoots fuel v [] = some roots ∧
        roots.Nodup ∧ ∀ r, r ∈ roots ↔
          r ∈ v.inodes ∧ ((v.heap.obj r).parent = NULL ∨ (v.heap.obj r).parent = r)) := by
  have hget : ∀ p ∈ v.inodes, ∃ r, (∀ fuel, v.inodes.length ≤ fuel →
      getRoot fuel v.heap p = some r) ∧ getRoot v.inodes.length v.heap p = some r := by
    intro p hp
    obtain ⟨r, hr⟩ := Option.isSome_iff_exists.mp (getRoot_isSome hclosed hp le_rfl)
    exact ⟨r, fun fuel hfuel => climb_mono hr hfuel, hr⟩
  refine ⟨fun p hp => ?_, fun hacyclic => ⟨fun p hp => ?_, fun fuel hfuel => ?_⟩⟩
  · obtain ⟨r, hall, hr⟩ := hget p hp
    exact ⟨r, hall, climb_reaches hr⟩
  · obtain ⟨r, hall, hr⟩ := hget p hp
    have hends : Ends v.heap.parentOf p := (forall_ends_iff hclosed).mpr hacyclic p hp
    have hstop : FullPathEnds v.heap p r := getRoot_of_ends hends hr
    refine ⟨r, hall, hstop.root, hstop, fun legal => ⟨getFullPath_iff.mpr hends, ?_⟩⟩
    intro fuel path h' hpath
    exact (head_getFullPath fuel rfl hpath).2 r path hstop.endsAt rfl
  · exact mem_findRoots hclosed hacyclic hfuel

/-- File 1 in directory 2 in directory 3, which is its own parent, and directory 4 without one. -/
def smallTree : InodeVector where
  heap :=
    { obj := fun p =>
        { kind := if p = 1 then .file else .dir
          byteOffset := 512 * p
          parent := if p = 1 then 2 else if p = 2 ∨ p = 3 then 3 else NULL
          name := Nat.toDigits 10 p
          parentDiNumber := 0
          diNumber := p
          isMarked := false
          dinode := none
          siblings := [] }
      brk := 5 }
  inodes := [1, 2, 3, 4]
  invalidatedInodes := []
  diNumberIndex := ∅
  diNumberIndexOk := false

theorem parentsInside_smallTree : ParentsInside smallTree := by
  intro p hp q hq
  obtain ⟨hnull, rfl⟩ := Heap.parentOf_eq_some.mp hq
  have hcases : p = 1 ∨ p = 2 ∨ p = 3 ∨ p = 4 := by simpa [smallTree] using hp
  rcases hcases with rfl | rfl | rfl | rfl
  · decide
  · decide
  · decide
  · exact absurd rfl hnull

theorem acyclic_smallTree : Acyclic smallTree := by
  have hthree : Ends smallTree.heap.parentOf 3 := .self (by decide)
  have htwo : Ends smallTree.heap.parentOf 2 := .link (by decide) hthree
  have hone : Ends smallTree.heap.parentOf 1 := .link (by decide) htwo
  have hfour : Ends smallTree.heap.parentOf 4 := .root (by decide)
  refine (forall_ends_iff (l := smallTree.inodes) parentsInside_smallTree).mp ?_
  intro p hp
  have hcases : p = 1 ∨ p = 2 ∨ p = 3 ∨ p = 4 := by simpa [smallTree] using hp
  rcases hcases with rfl | rfl | rfl | rfl
  · exact hone
  · exact htwo
  · exact hthree
  · exact hfour

theorem getRoot_findRoots_smallTree : getRoot 4 smallTree.heap 1 = some 3 ∧
    ∃ roots, findRoots 5 smallTree [] = some roots ∧ roots.Nodup ∧ 3 ∈ roots ∧ 4 ∈ roots ∧
      1 ∉ roots := by
  obtain ⟨_, htree⟩ := getRoot_findRoots smallTree parentsInside_smallTree
  obtain ⟨roots, hroots, hnodup, hmem⟩ := (htree acyclic_smallTree).2 5 (by decide)
  refine ⟨by decide, roots, hroots, hnodup, (hmem 3).mpr (by decide), (hmem 4).mpr (by decide), ?_⟩
  intro hone
  exact absurd ((hmem 1).mp hone).2 (by decide)

end Recoverer

end Jfsrec
