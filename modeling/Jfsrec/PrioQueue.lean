import Jfsrec.Lib.Trails
import Jfsrec.Names
import Mathlib.Data.Finset.Dedup
import Mathlib.Data.Finset.Lattice.Fold

/-!
# Recovery by priority

With `--first`, `--last` or `--exclude`, `generate_prio_queue` of `recoverer.cpp` sorts the
inodes into three deques by their full paths, and leaves out those that `--exclude` matches.
`recover_dirtree` then creates the directories of the queue, each with all directories above
it, and `recover_iterative` opens the files.

Since directories are left out as well, a file may have none to be in.
`directoriesExist_iff` says when all have one.
-/

namespace Jfsrec

open Lib

namespace Recoverer

/-! ### The queue -/

/-- The options that are given: `regex_search` in a full path. -/
structure PrioOptions where
  exclude : Option (Path → Bool)
  first : Option (Path → Bool)
  last : Option (Path → Bool)

def PrioOptions.Given (o : PrioOptions) : Prop :=
  o.exclude ≠ none ∨ o.first ≠ none ∨ o.last ≠ none

def fullPath (legal : List Char → Bool) (fuel : ℕ) (p : Ptr) (h : Heap) : Option (Path × Heap) :=
  match getFullPath legal fuel p h with
  | some (some path, h) => some (path, h)
  | _ => none

def searches (legal : List Char → Bool) (fuel : ℕ) (re : Option (Path → Bool)) (p : Ptr)
    (h : Heap) : Option (Bool × Heap) :=
  match re with
  | none => some (false, h)
  | some re => (fullPath legal fuel p h).map (fun r => (re r.1, r.2))

inductive Rank
  | first
  | normal
  | last
deriving DecidableEq, Repr

def rank (legal : List Char → Bool) (fuel : ℕ) (o : PrioOptions) (p : Ptr) (h : Heap) :
    Option (Option Rank × Heap) :=
  match searches legal fuel o.exclude p h with
  | none => none
  | some (true, h) => some (none, h)
  | some (false, h) =>
      match searches legal fuel o.first p h with
      | none => none
      | some (true, h) => some (some .first, h)
      | some (false, h) =>
          (searches legal fuel o.last p h).map (fun r =>
            (some (if r.1 then .last else .normal), r.2))

structure Deques where
  first : List Ptr
  normal : List Ptr
  last : List Ptr

def Deques.push (q : Deques) (p : Ptr) : Option Rank → Deques
  | none => q
  | some .first => { q with first := q.first ++ [p] }
  | some .normal => { q with normal := q.normal ++ [p] }
  | some .last => { q with last := q.last ++ [p] }

def fillDeques (legal : List Char → Bool) (fuel : ℕ) (o : PrioOptions) :
    List Ptr → Deques → Heap → Option (Deques × Heap)
  | [], q, h => some (q, h)
  | p :: ps, q, h =>
      match rank legal fuel o p h with
      | none => none
      | some (r, h) => fillDeques legal fuel o ps (q.push p r) h

def generatePrioQueue (legal : List Char → Bool) (fuel : ℕ) (o : PrioOptions)
    (v : InodeVector) : Option (List Ptr × Heap) :=
  (fillDeques legal fuel o v.inodes ⟨[], [], []⟩ v.heap).map (fun r =>
    (r.1.first ++ r.1.normal ++ r.1.last, r.2))

/-! ### Directories and files -/

/-- `create_directories`: the directory, and those above it.  `tree` are the directories
that there are. -/
def createDirectories (path : Path) (tree : List Path) : List Path := tree ++ path.inits

def createDirs (legal : List Char → Bool) (fuel : ℕ) :
    List Ptr → List Path → Heap → Option (List Path × Heap)
  | [], tree, h => some (tree, h)
  | p :: ps, tree, h =>
      if (h.obj p).kind = .dir then
        match fullPath legal fuel p h with
        | none => none
        | some (path, h) => createDirs legal fuel ps (createDirectories path tree) h
      else createDirs legal fuel ps tree h

/-- `recover_dirtree(prio)`, which creates the output directory first. -/
def recoverDirtreePrio (legal : List Char → Bool) (fuel : ℕ) (prio : List Ptr)
    (tree : List Path) (h : Heap) : Option (List Path × Heap) :=
  createDirs legal fuel prio ([] :: tree) h

/-- `recover_iterative(prio)`: the files that it comes to, with their paths.  To come to an
inode, `recover` must have returned for those before. -/
def recoverIterativePrio (legal : List Char → Bool) (fuel : ℕ) :
    List Ptr → Heap → Option (List (Ptr × Path) × Heap)
  | [], h => some ([], h)
  | p :: ps, h =>
      if (h.obj p).kind = .file ∨ (h.obj p).kind = .dir then
        match fullPath legal fuel p h with
        | none => none
        | some (path, h) =>
            (recoverIterativePrio legal fuel ps h).map (fun r =>
              (if (h.obj p).kind = .file then (p, path) :: r.1 else r.1, r.2))
      else recoverIterativePrio legal fuel ps h

/-- What `recover` does with the options: the queue, the directories there are when the files
are written, and the files. -/
structure PrioRun where
  queue : List Ptr
  tree : List Path
  files : List (Ptr × Path)
  heap : Heap

def recoverPrio (legal : List Char → Bool) (fuel : ℕ) (o : PrioOptions) (v : InodeVector)
    (tree : List Path) : Option PrioRun :=
  match generatePrioQueue legal fuel o v with
  | none => none
  | some (queue, h) =>
      match recoverDirtreePrio legal fuel queue tree h with
      | none => none
      | some (tree, h) =>
          (recoverIterativePrio legal fuel queue h).map (fun r => ⟨queue, tree, r.1, r.2⟩)

/-! ### Paths of legal names -/

def NamesTo (h : Heap) (p : Ptr) (ns : Path) : Prop :=
  Trail h.parentOf (fun x => (h.obj x).name) p ns

/-- The names along the parents are components that the path library takes. -/
def LegalNames (legal : List Char → Bool) (h : Heap) (p : Ptr) : Prop :=
  ∀ ns, NamesTo h p ns → ∀ n ∈ ns, legal n = true ∧ Component n

variable {legal : List Char → Bool} {fuel : ℕ} {o : PrioOptions} {v : InodeVector} {h : Heap}
  {p : Ptr} {ns : Path} {tree : List Path}

theorem getFullPath_root (hroot : h.parentOf p = none ∨ h.parentOf p = some p)
    (hl : legal (h.obj p).name = true) (fuel : ℕ) :
    getFullPath legal fuel p h = if 1 ≤ fuel then some (some [(h.obj p).name], h) else none := by
  cases fuel with
  | zero => rfl
  | succ fuel =>
    have honce : fullPathOnce legal (getFullPath legal fuel) p h
        = some (some [(h.obj p).name], h) := by
      rw [fullPathOnce, if_pos (Heap.root_iff.mpr hroot), if_pos hl]
    rw [getFullPath, honce, if_pos (by omega)]

theorem getFullPath_of_names (hns : NamesTo h p ns) (hl : ∀ n ∈ ns, legal n = true) (fuel : ℕ) :
    getFullPath legal fuel p h = if ns.length ≤ fuel then some (some ns, h) else none := by
  induction hns generalizing fuel with
  | @root a hn => exact getFullPath_root (Or.inl hn) (hl _ List.mem_cons_self) fuel
  | @self a hn => exact getFullPath_root (Or.inr hn) (hl _ List.mem_cons_self) fuel
  | @link a b ns hlink hne hb ih =>
    have hname : legal (h.obj a).name = true := hl _ (by simp)
    obtain ⟨hnull, hparent⟩ := Heap.parentOf_eq_some.mp hlink
    have hself : (h.obj a).parent ≠ a := by rwa [hparent]
    rw [List.length_append, List.length_singleton]
    cases fuel with
    | zero => rw [if_neg (by omega)]; rfl
    | succ fuel =>
      have hup := ih (fun n hn => hl n (List.mem_append_left _ hn)) fuel
      rw [getFullPath, fullPathOnce, if_neg (not_or.mpr ⟨hnull, hself⟩), hparent, hup]
      by_cases hfuel : ns.length ≤ fuel
      · rw [if_pos hfuel, if_pos (by omega)]
        dsimp only
        rw [if_pos hname]
      · rw [if_neg hfuel, if_neg (by omega)]

/-! ### The run, with known paths -/

def PrioOptions.excludes (o : PrioOptions) (path : Path) : Bool := o.exclude.any (fun re => re path)

def PrioOptions.rankOf (o : PrioOptions) (path : Path) : Option Rank :=
  if o.excludes path then none
  else if o.first.any (fun re => re path) then some .first
  else if o.last.any (fun re => re path) then some .last
  else some .normal

section Known

variable {pathOf : Ptr → Path} {l : List Ptr} {S : Heap → Prop}

/-- The calls of `get_full_path` for `p` return `path`, and do not leave the heaps in `S`. -/
def ReturnsPath (legal : List Char → Bool) (fuel : ℕ) (S : Heap → Prop) (p : Ptr) (path : Path) :
    Prop :=
  ∀ h, S h → ∃ h', fullPath legal fuel p h = some (path, h') ∧ S h'

theorem returnsPath_of_eq {path : Path} (hp : fullPath legal fuel p h = some (path, h)) :
    ReturnsPath legal fuel (· = h) p path := by
  rintro _ rfl
  exact ⟨_, hp, rfl⟩

theorem searches_spec {path : Path} {re : Option (Path → Bool)}
    (hp : re ≠ none → ReturnsPath legal fuel S p path) (hS : S h) :
    ∃ h', searches legal fuel re p h = some (re.any (fun re => re path), h') ∧ S h' := by
  cases re with
  | none => exact ⟨h, rfl, hS⟩
  | some re =>
    obtain ⟨h', hr, hS'⟩ := hp (Option.some_ne_none re) h hS
    rw [searches, hr]
    exact ⟨h', rfl, hS'⟩

theorem rank_spec {path : Path} (hp : o.Given → ReturnsPath legal fuel S p path) (hS : S h) :
    ∃ h', rank legal fuel o p h = some (o.rankOf path, h') ∧ S h' := by
  obtain ⟨h1, hex, hS1⟩ := searches_spec (fun hre => hp (Or.inl hre)) hS
  rw [rank, hex, PrioOptions.rankOf, PrioOptions.excludes]
  cases o.exclude.any (fun re => re path) with
  | true => exact ⟨h1, rfl, hS1⟩
  | false =>
    obtain ⟨h2, hfirst, hS2⟩ := searches_spec (fun hre => hp (Or.inr (Or.inl hre))) hS1
    dsimp only
    rw [hfirst]
    cases o.first.any (fun re => re path) with
    | true => exact ⟨h2, rfl, hS2⟩
    | false =>
      obtain ⟨h3, hlast, hS3⟩ := searches_spec (fun hre => hp (Or.inr (Or.inr hre))) hS2
      dsimp only
      rw [hlast]
      refine ⟨h3, ?_, hS3⟩
      cases o.last.any (fun re => re path) with
      | true => rfl
      | false => rfl

def ranked (o : PrioOptions) (pathOf : Ptr → Path) (r : Rank) (l : List Ptr) : List Ptr :=
  l.filter (fun x => o.rankOf (pathOf x) = some r)

def queueOf (o : PrioOptions) (pathOf : Ptr → Path) (l : List Ptr) : List Ptr :=
  ranked o pathOf .first l ++ ranked o pathOf .normal l ++ ranked o pathOf .last l

theorem fillDeques_spec (hl : o.Given → ∀ x ∈ l, ReturnsPath legal fuel S x (pathOf x))
    (q : Deques) (hS : S h) :
    ∃ h', fillDeques legal fuel o l q h = some (⟨q.first ++ ranked o pathOf .first l,
      q.normal ++ ranked o pathOf .normal l, q.last ++ ranked o pathOf .last l⟩, h') ∧ S h' := by
  induction l generalizing q h with
  | nil => exact ⟨h, by simp [fillDeques, ranked], hS⟩
  | cons x l ih =>
    obtain ⟨h1, hrank, hS1⟩ := rank_spec (fun ho => hl ho x List.mem_cons_self) hS
    obtain ⟨h2, hfill, hS2⟩ := ih (fun ho y hy => hl ho y (List.mem_cons_of_mem x hy))
      (q.push x (o.rankOf (pathOf x))) hS1
    refine ⟨h2, ?_, hS2⟩
    rw [fillDeques, hrank]
    dsimp only
    rw [hfill]
    cases hr : o.rankOf (pathOf x) with
    | none => simp [ranked, Deques.push, hr]
    | some r => cases r <;> simp [ranked, Deques.push, hr]

/-- **The queue are the inodes that are not excluded**, those of each deque in their order. -/
theorem generatePrioQueue_spec
    (hl : o.Given → ∀ x ∈ v.inodes, ReturnsPath legal fuel S x (pathOf x)) (hS : S v.heap) :
    ∃ h, generatePrioQueue legal fuel o v = some (queueOf o pathOf v.inodes, h) ∧ S h := by
  obtain ⟨h, hfill, hS'⟩ := fillDeques_spec hl ⟨[], [], []⟩ hS
  rw [generatePrioQueue, hfill]
  exact ⟨h, rfl, hS'⟩

theorem generatePrioQueue_eq
    (hl : ∀ x ∈ v.inodes, fullPath legal fuel x v.heap = some (pathOf x, v.heap)) :
    generatePrioQueue legal fuel o v = some (queueOf o pathOf v.inodes, v.heap) := by
  obtain ⟨_, hq, rfl⟩ :=
    generatePrioQueue_spec (o := o) (fun _ x hx => returnsPath_of_eq (hl x hx)) rfl
  exact hq

theorem rankOf_eq_none_iff {path : Path} : o.rankOf path = none ↔ o.excludes path = true := by
  unfold PrioOptions.rankOf
  split_ifs <;> simp_all

theorem mem_queue_iff {x : Ptr} :
    x ∈ queueOf o pathOf l ↔ x ∈ l ∧ ¬ o.excludes (pathOf x) = true := by
  rw [← rankOf_eq_none_iff]
  simp only [queueOf, ranked, List.mem_append, List.mem_filter, decide_eq_true_eq]
  cases o.rankOf (pathOf x) with
  | none => simp
  | some r => cases r <;> simp

theorem mem_createDirectories {path ns : Path} :
    ns ∈ createDirectories path tree ↔ ns ∈ tree ∨ ns <+: path := by
  rw [createDirectories, List.mem_append, List.mem_inits]

/-- **The directories that are created** are those of the queue and all above them. -/
theorem createDirs_spec (tree : List Path)
    (hl : ∀ x ∈ l, fullPath legal fuel x h = some (pathOf x, h)) :
    ∃ tree', createDirs legal fuel l tree h = some (tree', h) ∧
      ∀ ns, ns ∈ tree' ↔ ns ∈ tree ∨ ∃ e ∈ l, (h.obj e).kind = .dir ∧ ns <+: pathOf e := by
  induction l generalizing tree with
  | nil => exact ⟨tree, rfl, fun ns => by simp⟩
  | cons x l ih =>
    rw [List.forall_mem_cons] at hl
    rw [createDirs]
    by_cases hdir : (h.obj x).kind = .dir
    · obtain ⟨tree', htree, hmem⟩ := ih (createDirectories (pathOf x) tree) hl.2
      rw [if_pos hdir, hl.1]
      refine ⟨tree', htree, fun ns => ?_⟩
      rw [hmem, mem_createDirectories, List.exists_mem_cons_iff, or_assoc]
      simp only [hdir, true_and]
    · obtain ⟨tree', htree, hmem⟩ := ih tree hl.2
      rw [if_neg hdir]
      refine ⟨tree', htree, fun ns => ?_⟩
      rw [hmem, List.exists_mem_cons_iff]
      simp only [hdir, false_and, false_or]

theorem recoverIterativePrio_eq (hl : ∀ x ∈ l, fullPath legal fuel x h = some (pathOf x, h)) :
    recoverIterativePrio legal fuel l h =
      some ((l.filter (fun x => (h.obj x).kind = .file)).map (fun x => (x, pathOf x)), h) := by
  induction l with
  | nil => rfl
  | cons x l ih =>
    rw [List.forall_mem_cons] at hl
    rw [recoverIterativePrio, hl.1]
    dsimp only
    rw [ih hl.2]
    by_cases hfile : (h.obj x).kind = .file
    · rw [if_pos (Or.inl hfile), List.filter_cons_of_pos (by simpa using hfile)]
      simp [hfile]
    · rw [List.filter_cons_of_neg (by simpa using hfile)]
      by_cases hdir : (h.obj x).kind = .dir
      · rw [if_pos (Or.inr hdir)]
        simp [hdir]
      · rw [if_neg (not_or.mpr ⟨hfile, hdir⟩)]

/-- What a run has come to, if the paths are known. -/
structure PrioRun.Knows (run : PrioRun) (o : PrioOptions) (v : InodeVector) (tree : List Path)
    (pathOf : Ptr → Path) : Prop where
  heap : run.heap = v.heap
  tree : ∀ ns, ns ∈ run.tree ↔ ns ∈ [] :: tree ∨ ∃ e ∈ v.inodes,
    (v.heap.obj e).kind = .dir ∧ ¬ o.excludes (pathOf e) = true ∧ ns <+: pathOf e
  files : ∀ f path, (f, path) ∈ run.files ↔ f ∈ v.inodes ∧ (v.heap.obj f).kind = .file ∧
    ¬ o.excludes (pathOf f) = true ∧ path = pathOf f

/-- **The run ends**, with the directories and the files that are not excluded. -/
theorem recoverPrio_spec (tree : List Path)
    (hl : ∀ x ∈ v.inodes, fullPath legal fuel x v.heap = some (pathOf x, v.heap)) :
    ∃ run, recoverPrio legal fuel o v tree = some run ∧ run.Knows o v tree pathOf := by
  have hqueue : ∀ x ∈ queueOf o pathOf v.inodes,
      fullPath legal fuel x v.heap = some (pathOf x, v.heap) :=
    fun x hx => hl x (mem_queue_iff.mp hx).1
  obtain ⟨tree', htree, hmem⟩ := createDirs_spec ([] :: tree) hqueue
  have hrun : recoverPrio legal fuel o v tree = some ⟨queueOf o pathOf v.inodes, tree',
      ((queueOf o pathOf v.inodes).filter (fun x => (v.heap.obj x).kind = .file)).map
        (fun x => (x, pathOf x)), v.heap⟩ := by
    rw [recoverPrio, generatePrioQueue_eq hl]
    dsimp only
    rw [recoverDirtreePrio, htree]
    dsimp only
    rw [recoverIterativePrio_eq hqueue]
    rfl
  refine ⟨_, hrun, rfl, fun ns => ?_, fun f path => ?_⟩
  · rw [hmem]
    refine or_congr_right (exists_congr (fun e => ?_))
    rw [mem_queue_iff]
    tauto
  · simp only [List.mem_map, List.mem_filter, mem_queue_iff, decide_eq_true_eq, Prod.mk.injEq]
    refine ⟨?_, ?_⟩
    · rintro ⟨x, ⟨⟨hx, hex⟩, hfile⟩, rfl, rfl⟩
      exact ⟨hx, hfile, hex, rfl⟩
    · rintro ⟨hf, hfile, hex, rfl⟩
      exact ⟨f, ⟨⟨hf, hex⟩, hfile⟩, rfl, rfl⟩

end Known

/-! ### Directories for the files -/

/-- The directory of a file is there when the file is come to, if the parent is a
directory. -/
def DirectoriesExist (legal : List Char → Bool) (run : PrioRun) : Prop :=
  ∀ f ∈ run.files, ∀ d, run.heap.parentOf f.1 = some d → (run.heap.obj d).kind = .dir →
    ∃ fuel ns h, getFullPath legal fuel d run.heap = some (some ns, h) ∧
      f.2.dropLast = ns ∧ ns ∈ run.tree

/-- The parent of each file that is not excluded is there already, or at or above a
directory that is not excluded. -/
def ParentsCovered (o : PrioOptions) (v : InodeVector) (tree : List Path) : Prop :=
  ∀ f ∈ v.inodes, (v.heap.obj f).kind = .file →
    ∀ d, v.heap.parentOf f = some d → (v.heap.obj d).kind = .dir →
      ∀ ns, NamesTo v.heap d ns → ¬ o.excludes (ns ++ [(v.heap.obj f).name]) = true →
        ns ∈ tree ∨ ∃ e ∈ v.inodes, (v.heap.obj e).kind = .dir ∧
          ∃ ms, NamesTo v.heap e ms ∧ ¬ o.excludes ms = true ∧ ns <+: ms

theorem exists_fuel_fullPath {l : List Ptr} {pathOf : Ptr → Path}
    (hnames : ∀ x ∈ l, NamesTo h x (pathOf x)) (hlegal : ∀ x ∈ l, LegalNames legal h x) :
    ∃ fuel, ∀ n, fuel ≤ n → ∀ x ∈ l, fullPath legal n x h = some (pathOf x, h) := by
  refine ⟨l.toFinset.sup (fun x => (pathOf x).length), fun n hn x hx => ?_⟩
  have hlen : (pathOf x).length ≤ l.toFinset.sup (fun x => (pathOf x).length) :=
    Finset.le_sup (f := fun x => (pathOf x).length) (List.mem_toFinset.mpr hx)
  have hl : ∀ m ∈ pathOf x, legal m = true := fun m hm => (hlegal x hx _ (hnames x hx) m hm).1
  rw [fullPath, getFullPath_of_names (hnames x hx) hl, if_pos (by omega)]

theorem namesTo_parent {f d : Ptr} (hf : NamesTo h f ns) (hpar : h.parentOf f = some d)
    (hne : d ≠ f) : ∃ init, ns = init ++ [(h.obj f).name] ∧ NamesTo h d init := by
  obtain ⟨init, rfl, hplace⟩ := Trail.last hf
  rw [place_of_link hpar hne] at hplace
  obtain ⟨hnone, _⟩ | ⟨b, hb, htrail⟩ := hplace
  · cases hnone
  · obtain rfl := Option.some.inj hb
    exact ⟨init, rfl, htrail⟩

theorem PrioRun.Knows.covered_iff {run : PrioRun} {pathOf : Ptr → Path}
    (hrun : run.Knows o v tree pathOf) (hnames : ∀ x ∈ v.inodes, NamesTo v.heap x (pathOf x))
    (hlegal : ∀ x ∈ v.inodes, LegalNames legal v.heap x) :
    DirectoriesExist legal run ↔ ParentsCovered o v tree := by
  unfold DirectoriesExist
  rw [hrun.heap]
  have hparent : ∀ f ∈ v.inodes, (v.heap.obj f).kind = .file →
      ∀ d, v.heap.parentOf f = some d → (v.heap.obj d).kind = .dir →
        ∃ ns, pathOf f = ns ++ [(v.heap.obj f).name] ∧ NamesTo v.heap d ns := by
    intro f hf hfile d hpar hdir
    refine namesTo_parent (hnames f hf) hpar (fun hdf => ?_)
    rw [hdf, hfile] at hdir
    cases hdir
  refine ⟨fun h f hf hfile d hpar hdir ns hns hex => ?_, fun h r hr d hpar hdir => ?_⟩
  · obtain ⟨init, hpf, hinit⟩ := hparent f hf hfile d hpar hdir
    obtain rfl := hinit.unique hns
    rw [← hpf] at hex
    obtain ⟨_, _, _, _, rfl, hin⟩ := h _ ((hrun.files f _).mpr ⟨hf, hfile, hex, rfl⟩) d hpar hdir
    dsimp only at hin
    rw [hpf, List.dropLast_concat, hrun.tree, List.mem_cons] at hin
    rcases hin with (hnil | hin) | ⟨e, he, hed, hex', hpre⟩
    · exact absurd hnil hinit.ne_nil
    · exact Or.inl hin
    · exact Or.inr ⟨e, he, hed, _, hnames e he, hex', hpre⟩
  · obtain ⟨f, path⟩ := r
    obtain ⟨hf, hfile, hex, rfl⟩ := (hrun.files f path).mp hr
    obtain ⟨ns, hpf, hns⟩ := hparent f hf hfile d hpar hdir
    have hl : ∀ m ∈ ns, legal m = true := by
      intro m hm
      refine (hlegal f hf _ (hnames f hf) m ?_).1
      rw [hpf]
      exact List.mem_append_left _ hm
    refine ⟨ns.length, ns, v.heap, ?_, ?_, ?_⟩
    · rw [getFullPath_of_names hns hl, if_pos (Nat.le_refl _)]
    · dsimp only
      rw [hpf, List.dropLast_concat]
    · rw [hrun.tree, List.mem_cons]
      rw [hpf] at hex
      rcases h f hf hfile d hpar hdir ns hns hex with hin | ⟨e, he, hed, ms, hms, hex', hpre⟩
      · exact Or.inl (Or.inr hin)
      · obtain rfl := (hnames e he).unique hms
        exact Or.inr ⟨e, he, hed, hex', hpre⟩

/-- **Every file has its directory exactly if the parent of each file that is not excluded
is covered by a directory that is not excluded.** -/
theorem directoriesExist_iff (o : PrioOptions) (tree : List Path)
    (hends : ∀ x ∈ v.inodes, Ends v.heap.parentOf x)
    (hlegal : ∀ x ∈ v.inodes, LegalNames legal v.heap x) :
    ∃ fuel, ∀ n, fuel ≤ n → ∃ run, recoverPrio legal n o v tree = some run ∧
      (DirectoriesExist legal run ↔ ParentsCovered o v tree) := by
  obtain ⟨pathOf, hnames⟩ : ∃ pathOf : Ptr → Path, ∀ x ∈ v.inodes, NamesTo v.heap x (pathOf x) := by
    have hex : ∀ x, ∃ ns : Path, x ∈ v.inodes → NamesTo v.heap x ns := by
      intro x
      by_cases hx : x ∈ v.inodes
      · obtain ⟨ns, hns⟩ := exists_trail (fun x => (v.heap.obj x).name) (hends x hx)
        exact ⟨ns, fun _ => hns⟩
      · exact ⟨[], fun h => absurd h hx⟩
    exact Classical.axiomOfChoice hex
  obtain ⟨fuel, hfuel⟩ := exists_fuel_fullPath hnames hlegal
  refine ⟨fuel, fun n hn => ?_⟩
  obtain ⟨run, hrun, hknows⟩ := recoverPrio_spec tree (hfuel n hn)
  exact ⟨run, hrun, hknows.covered_iff hnames hlegal⟩

/-- Directory 1, in which file 2 lies. -/
def fileInDir : InodeVector where
  heap :=
    { obj := fun p =>
        if p = 2 then { Inode.construct .file (Dinode.ofBuffer (fun _ => 0) 0) 512 with
          parent := 1, name := ['f'] }
        else { Inode.construct .dir (Dinode.ofBuffer (fun _ => 0) 0) 0 with name := ['d'] }
      brk := 3 }
  inodes := [1, 2]
  invalidatedInodes := []
  diNumberIndex := ∅
  diNumberIndexOk := false

theorem namesTo_fileInDir : NamesTo fileInDir.heap 1 [['d']] ∧
    NamesTo fileInDir.heap 2 [['d'], ['f']] := by
  have hone : NamesTo fileInDir.heap 1 [['d']] := .root (by decide)
  exact ⟨hone, .link (b := 1) (by decide) (by decide) hone⟩

theorem ends_fileInDir : ∀ x ∈ fileInDir.inodes, Ends fileInDir.heap.parentOf x := by
  have hone : Ends fileInDir.heap.parentOf 1 := .root (by decide)
  intro x hx
  rcases List.mem_pair.mp hx with rfl | rfl
  · exact hone
  · exact .link (b := 1) (by decide) hone

theorem legalNames_fileInDir :
    ∀ x ∈ fileInDir.inodes, LegalNames (fun _ => true) fileInDir.heap x := by
  obtain ⟨hone, htwo⟩ := namesTo_fileInDir
  intro x hx ns hns
  rcases List.mem_pair.mp hx with rfl | rfl
  · obtain rfl := hone.unique hns
    decide
  · obtain rfl := htwo.unique hns
    decide

/-- `--exclude` with an expression that the directory matches, or that nothing does. -/
def excluding (path : Path) : PrioOptions := ⟨some (fun ns => ns = path), none, none⟩

theorem directoriesExist_excludingNothing : ∃ fuel, ∀ n, fuel ≤ n → ∃ run,
    recoverPrio (fun _ => true) n (excluding []) fileInDir [] = some run ∧
      DirectoriesExist (fun _ => true) run := by
  obtain ⟨fuel, hfuel⟩ :=
    directoriesExist_iff (excluding []) [] ends_fileInDir legalNames_fileInDir
  refine ⟨fuel, fun n hn => ?_⟩
  obtain ⟨run, hrun, hiff⟩ := hfuel n hn
  refine ⟨run, hrun, hiff.mpr ?_⟩
  obtain ⟨hone, _⟩ := namesTo_fileInDir
  intro f hf hfile d hpar _ ns hns _
  rcases List.mem_pair.mp hf with rfl | rfl
  · exact absurd hfile (by decide)
  · obtain rfl : 1 = d := Option.some.inj hpar
    obtain rfl := hone.unique hns
    exact Or.inr ⟨1, by decide, by decide, _, hone, by decide, List.prefix_refl _⟩

/-- **A directory is excluded and its file is not**: it is not created, and the file is still
to be opened in it. -/
theorem not_directoriesExist_excludingDir : ∃ run,
    recoverPrio (fun _ => true) 2 (excluding [['d']]) fileInDir [] = some run ∧
      (2, [['d'], ['f']]) ∈ run.files ∧ run.tree = [[]] ∧
      ¬ DirectoriesExist (fun _ => true) run := by
  refine ⟨⟨[2], [[]], [(2, [['d'], ['f']])], fileInDir.heap⟩, rfl, by decide, rfl, fun h => ?_⟩
  obtain ⟨_, _, _, _, rfl, hin⟩ := h _ (List.mem_singleton_self _) 1 (by decide) (by decide)
  exact absurd hin (by decide)

end Recoverer

end Jfsrec
