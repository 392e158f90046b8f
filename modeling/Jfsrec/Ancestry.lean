import Jfsrec.Fixpoint

/-!
# Ancestry

`Inode::get_full_path` climbs from parent to parent and stops at an inode
without a parent or at one that is its own.  Whether it stops depends on the
links that the recoverer has set, from two sources that need not agree:
`adopted` is the parent a directory gets from its own `idotdot`, and `claimant`
the last directory whose listing names the inode, which overrides it.

`parentOf_recovered` says that the parents after both functions are the
claimants, and `pathsEnd_iff` that all paths end exactly if the claimants form no
cycle.
-/

namespace Jfsrec

open Lib InodeVector

def Heap.parentOf (h : Heap) (p : Ptr) : Option Ptr :=
  if (h.obj p).parent = NULL then none else some (h.obj p).parent

theorem Heap.parentOf_eq_none {h : Heap} {p : Ptr} :
    h.parentOf p = none ↔ (h.obj p).parent = NULL := by
  rw [Heap.parentOf]
  split_ifs with hn <;> simp [hn]

theorem Heap.parentOf_eq_some {h : Heap} {p q : Ptr} :
    h.parentOf p = some q ↔ (h.obj p).parent ≠ NULL ∧ (h.obj p).parent = q := by
  rw [Heap.parentOf]
  split_ifs with hn <;> simp [hn]

theorem Heap.root_iff {h : Heap} {p : Ptr} :
    ((h.obj p).parent = NULL ∨ (h.obj p).parent = p) ↔
      h.parentOf p = none ∨ h.parentOf p = some p := by
  rw [Heap.parentOf_eq_none, Heap.parentOf_eq_some]
  tauto

namespace Recoverer

variable {env : Env} {names : Ptr → List InodeName} {legal : List Char → Bool}
  {v₀ v w u : InodeVector} {h : Heap} {p : Ptr}

/-! ### get_full_path -/

abbrev Path := List (List Char)

/-- The path of the parent, and the name behind it; `none` is the
`filesystem_error` that `path(name_)` throws for a name that is not legal. -/
def fullPathOnce (legal : List Char → Bool)
    (parentPath : Ptr → Heap → Option (Option Path × Heap)) (p : Ptr) (h : Heap) :
    Option (Option Path × Heap) :=
  if (h.obj p).parent = NULL ∨ (h.obj p).parent = p then
    some (if legal (h.obj p).name then some [(h.obj p).name] else none, h)
  else
    match parentPath (h.obj p).parent h with
    | some (some dir, h) =>
        some (if legal (h.obj p).name then some (dir ++ [(h.obj p).name]) else none, h)
    | r => r

/-- `get_full_path`; `none` when the fuel runs out. -/
def getFullPath (legal : List Char → Bool) : ℕ → Ptr → Heap → Option (Option Path × Heap)
  | 0, _, _ => none
  | fuel + 1, p, h =>
      match fullPathOnce legal (getFullPath legal fuel) p h with
      | some (none, h) =>
          -- the name was illegal, and the number takes its place
          fullPathOnce legal (getFullPath legal fuel) p
            (h.setName p (Nat.toDigits 10 (h.obj p).diNumber))
      | r => r

theorem parentOf_setName (h : Heap) (p : Ptr) (n : List Char) :
    (h.setName p n).parentOf = h.parentOf := by
  funext q
  have hq : ((h.setName p n).obj q).parent = (h.obj q).parent := by
    rw [Heap.setName, Heap.set_obj]
    split
    · rename_i hq; rw [hq]
    · rfl
  rw [Heap.parentOf, Heap.parentOf, hq]

theorem parentOf_of_root (hp : (h.obj p).parent = NULL ∨ (h.obj p).parent = p) :
    Ends h.parentOf p := by
  rcases Heap.root_iff.mp hp with hnone | hself
  · exact .root hnone
  · exact .self hself

theorem fullPathOnce_some {f : Ptr → Heap → Option (Option Path × Heap)} {r : Option Path × Heap}
    (hr : fullPathOnce legal f p h = some r) :
    ((h.obj p).parent = NULL ∨ (h.obj p).parent = p) ∨
      h.parentOf p = some (h.obj p).parent ∧ ∃ r', f (h.obj p).parent h = some r' := by
  unfold fullPathOnce at hr
  split at hr
  · rename_i hp
    exact Or.inl hp
  · rename_i hp
    refine Or.inr ⟨if_neg (fun hn => hp (Or.inl hn)), ?_⟩
    cases hf : f (h.obj p).parent h with
    | none => rw [hf] at hr; cases hr
    | some r' => exact ⟨r', rfl⟩

/-- A call that returns has climbed a chain that ends. -/
theorem ends_of_getFullPath {fuel : ℕ} : ∀ {p : Ptr} {h : Heap} {r : Option Path × Heap},
    getFullPath legal fuel p h = some r → Ends h.parentOf p := by
  induction fuel with
  | zero => intro p h r hr; cases hr
  | succ fuel ih =>
    intro p h r hr
    have honce : ∃ r', fullPathOnce legal (getFullPath legal fuel) p h = some r' := by
      cases ho : fullPathOnce legal (getFullPath legal fuel) p h with
      | none => rw [getFullPath, ho] at hr; cases hr
      | some r' => exact ⟨r', rfl⟩
    obtain ⟨r', hr'⟩ := honce
    rcases fullPathOnce_some hr' with hp | ⟨hpar, r'', hr''⟩
    · exact parentOf_of_root hp
    · exact .link hpar (ih hr'')

/-- The calls for a chain that ends return, whatever names they change. -/
def Returns (legal : List Char → Bool) (f : Ptr → Option Ptr) (fuel : ℕ) (p : Ptr) : Prop :=
  ∀ h : Heap, h.parentOf = f →
    ∃ r h', getFullPath legal fuel p h = some (r, h') ∧ h'.parentOf = f

theorem returns_of_once {f : Ptr → Option Ptr} {fuel : ℕ}
    (honce : ∀ h : Heap, h.parentOf = f →
      ∃ r h', fullPathOnce legal (getFullPath legal fuel) p h = some (r, h') ∧ h'.parentOf = f) :
    Returns legal f (fuel + 1) p := by
  intro h hf
  obtain ⟨r, h', hr, hf'⟩ := honce h hf
  rw [getFullPath, hr]
  cases r with
  | some path => exact ⟨some path, h', rfl, hf'⟩
  | none =>
    exact honce _ (by rw [parentOf_setName, hf'])

theorem returns_of_ends (legal : List Char → Bool) {f : Ptr → Option Ptr} (he : Ends f p) :
    ∃ fuel, Returns legal f fuel p := by
  have hroot : ∀ q : Ptr, (f q = none ∨ f q = some q) → Returns legal f 1 q := by
    intro q hq
    refine returns_of_once (fun h hf => ⟨_, h, if_pos (Heap.root_iff.mpr ?_), hf⟩)
    rwa [hf]
  induction he with
  | root h => exact ⟨1, hroot _ (Or.inl h)⟩
  | self h => exact ⟨1, hroot _ (Or.inr h)⟩
  | @link a b hab _ ih =>
    obtain ⟨fuel, hfuel⟩ := ih
    refine ⟨fuel + 1, returns_of_once (fun h hf => ?_)⟩
    unfold fullPathOnce
    split
    · exact ⟨_, h, rfl, hf⟩
    · have hpar : (h.obj a).parent = b := (Heap.parentOf_eq_some.mp (by rwa [hf])).2
      obtain ⟨r, h', hr, hf'⟩ := hfuel h hf
      rw [hpar, hr]
      cases r with
      | none => exact ⟨none, h', rfl, hf'⟩
      | some dir => exact ⟨_, h', rfl, hf'⟩

/-- **`get_full_path` returns exactly for the chains that end.** -/
theorem getFullPath_iff : (∃ fuel, (getFullPath legal fuel p h).isSome) ↔ Ends h.parentOf p := by
  constructor
  · rintro ⟨fuel, hs⟩
    obtain ⟨r, hr⟩ := Option.isSome_iff_exists.mp hs
    exact ends_of_getFullPath hr
  · intro he
    obtain ⟨fuel, hfuel⟩ := returns_of_ends legal he
    obtain ⟨r, h', hr, _⟩ := hfuel h rfl
    exact ⟨fuel, by rw [hr]; rfl⟩

/-! ### The parents the first loop sets -/

/-- The numbers asked for before `x` asks: those of the inodes at the start, and
what directories before `x` asked for. -/
def askedBefore (v : InodeVector) (l : List Ptr) (x : Ptr) : List ℕ :=
  v.inodes.map v.heap.number ++ (before l x).flatMap (dotdot v.heap)

/-- The parent a directory in `l` takes: what its `idotdot` finds, but no regular
file that somebody else brought up. -/
def adopted (env : Env) (v : InodeVector) (l : List Ptr) (x : Ptr) : Option Ptr :=
  if v.heap.isDir x then
    (newest env v.heap l (v.heap.obj x).parentDiNumber).filter
      (fun p => ¬ ((v.heap.obj p).kind = .file ∧ (v.heap.obj x).parentDiNumber ∈ askedBefore v l x))
  else none

/-- What holds at the heads of the first loop. -/
structure Adopting (env : Env) (v₀ : InodeVector) (i : ℕ) (v : InodeVector) : Prop where
  recovering : Recovering env v₀ v
  explored : Explored v₀.heap.number (v₀.store env) (dotdot v₀.heap) v₀.inodes i v.inodes
  parent : ∀ x, (v.heap.obj x).parent = if x ∈ v.inodes.take i then
    (adopted env v₀ v.inodes x).getD (v₀.heap.obj x).parent else (v₀.heap.obj x).parent

theorem Adopting.start (hv : v.Indexed env) : Adopting env v 0 v :=
  ⟨.refl hv, explored_start v.inodes, fun _ => (if_neg (by simp)).symm⟩

/-- What the number of a visited directory finds does not change when the list grows. -/
theorem Adopting.newest_stable {i : ℕ} (h : Adopting env v₀ i v) (hw : Recovering env v₀ w)
    (hg : Grown v₀.heap.number (v₀.store env) v.inodes w.inodes) {x : Ptr}
    (hx : x ∈ v.inodes.take i) (hd : v₀.heap.isDir x) :
    newest env v₀.heap w.inodes (v₀.heap.obj x).parentDiNumber
      = newest env v₀.heap v.inodes (v₀.heap.obj x).parentDiNumber := by
  have hdot : (v₀.heap.obj x).parentDiNumber ∈ dotdot v₀.heap x := by
    rw [dotdot, if_pos hd]
    exact List.mem_singleton_self _
  have hl := h.recovering.lookup_stable hw hg (h.explored.answered x hx _ hdot)
  rw [lookup_frame hw.frame, lookup_frame h.recovering.frame] at hl
  exact hl

theorem Adopting.stable {i : ℕ} (h : Adopting env v₀ i v) (hw : Recovering env v₀ w)
    (hg : Grown v₀.heap.number (v₀.store env) v.inodes w.inodes) {x : Ptr}
    (hx : x ∈ v.inodes.take i) : adopted env v₀ w.inodes x = adopted env v₀ v.inodes x := by
  obtain ⟨new, hnew, _⟩ := id hg
  have hasked : askedBefore v₀ w.inodes x = askedBefore v₀ v.inodes x := by
    rw [askedBefore, hnew, before_append_of_mem (List.mem_of_mem_take hx), askedBefore]
  by_cases hd : v₀.heap.isDir x
  · rw [adopted, adopted, if_pos hd, if_pos hd, hasked, h.newest_stable hw hg hx hd]
  · rw [adopted, adopted, if_neg hd, if_neg hd]

theorem answered_of_askedBefore {i : ℕ} {l rest : List Ptr} {c : Ptr}
    (hexp : Explored v.heap.number (v.store env) (dotdot v.heap) v.inodes i l) {d : ℕ}
    (hd : d ∈ askedBefore v (l.take i ++ c :: rest) c) :
    Answered v.heap.number (v.store env) l d := by
  rcases List.mem_append.mp hd with hd | hd
  · exact Or.inl (hexp.grown.known hd)
  · obtain ⟨b, hb, hd⟩ := List.mem_flatMap.mp hd
    exact hexp.answered b (before_append_cons_subset _ _ _ hb) d hd

theorem askedBefore_of_known {i : ℕ} {l rest : List Ptr} {c : Ptr}
    (hexp : Explored v.heap.number (v.store env) (dotdot v.heap) v.inodes i l)
    (hc : c ∉ l.take i) {d : ℕ} (hd : d ∈ l.map v.heap.number) :
    d ∈ askedBefore v (l.take i ++ c :: rest) c := by
  obtain ⟨a, ha, rfl⟩ := List.mem_map.mp hd
  rw [askedBefore, before_append_cons hc]
  rcases hexp.origin a ha with ha | ⟨b, hb, hab⟩
  · exact List.mem_append_left _ (List.mem_map_of_mem ha)
  · exact List.mem_append_right _ (List.mem_flatMap.mpr ⟨b, hb, hab⟩)

/-- What the directory in turn takes: what it found, if it is set as the parent, and
nothing new otherwise. -/
theorem adopted_asked {i : ℕ} {c : Ptr} (h : Adopting env v₀ i v)
    (hsplit : v.inodes = v.inodes.take i ++ c :: v.inodes.drop (i + 1)) (hd : v₀.heap.isDir c)
    (hw : v.Asked env (v₀.heap.obj c).parentDiNumber w) {p : Ptr}
    (hp : w.lookup env (v₀.heap.obj c).parentDiNumber = some p) :
    (¬ ((v₀.heap.obj p).kind = .file ∧
        (v₀.heap.obj c).parentDiNumber ∈ v.inodes.map v₀.heap.number) →
      adopted env v₀ w.inodes c = some p) ∧
    ((v₀.heap.obj p).kind = .file ∧
        (v₀.heap.obj c).parentDiNumber ∈ v.inodes.map v₀.heap.number → c ∉ v.inodes.take i →
      adopted env v₀ w.inodes c = none) := by
  obtain ⟨hrec, hin⟩ := h.recovering.asked hw
  obtain ⟨new, hnew, _⟩ := h.recovering.grown_asked hw
  have hlist : w.inodes = v.inodes.take i ++ c :: (v.inodes.drop (i + 1) ++ new) := by
    rw [hnew]
    nth_rewrite 1 [hsplit]
    simp
  have hadopt : adopted env v₀ w.inodes c = (some p).filter
      (fun p => ¬ ((v₀.heap.obj p).kind = .file ∧
        (v₀.heap.obj c).parentDiNumber ∈ askedBefore v₀ w.inodes c)) := by
    rw [adopted, if_pos hd, ← hp, lookup_frame hrec.frame]
  rw [hadopt, Option.filter_some]
  refine ⟨fun hset => if_pos (decide_eq_true ?_), fun hfile hc => if_neg ?_⟩
  · rintro ⟨hkind, hasked⟩
    rw [hlist] at hasked
    refine hset ⟨hkind, ?_⟩
    rcases answered_of_askedBefore h.explored hasked with hk | hnone
    · exact hk
    · -- nothing was added, so what was found was there
      obtain ⟨hmem, hnum⟩ := newest_mem hp
      rw [hin, request_of_none hnone] at hmem
      rw [← hnum]
      exact List.mem_map.mpr ⟨p, hmem, by rw [← hrec.frame.number]; rfl⟩
  · have hasked : (v₀.heap.obj c).parentDiNumber ∈
        askedBefore v₀ (v.inodes.take i ++ c :: (v.inodes.drop (i + 1) ++ new)) c :=
      askedBefore_of_known h.explored hc hfile.2
    rw [← hlist] at hasked
    rw [decide_eq_true_eq, not_not]
    exact ⟨hfile.1, hasked⟩

/-- A directory that finds a regular file somebody else brought up keeps its parent. -/
theorem adopted_getD_of_file {i : ℕ} {c : Ptr} (h : Adopting env v₀ i v)
    (hsplit : v.inodes = v.inodes.take i ++ c :: v.inodes.drop (i + 1)) (hd : v₀.heap.isDir c)
    (hw : v.Asked env (v₀.heap.obj c).parentDiNumber w) {p : Ptr}
    (hp : w.lookup env (v₀.heap.obj c).parentDiNumber = some p)
    (hfile : (v₀.heap.obj p).kind = .file ∧
      (v₀.heap.obj c).parentDiNumber ∈ v.inodes.map v₀.heap.number) :
    (adopted env v₀ w.inodes c).getD (v.heap.obj c).parent = (v.heap.obj c).parent := by
  obtain ⟨_, hkeep⟩ := adopted_asked h hsplit hd hw hp
  by_cases hc : c ∈ v.inodes.take i
  · -- visited before: it has what it took then
    obtain ⟨hrec, _⟩ := h.recovering.asked hw
    rw [h.parent c, if_pos hc, h.stable hrec (h.recovering.grown_asked hw) hc]
    cases adopted env v₀ v.inodes c <;> rfl
  · rw [hkeep hfile hc]
    rfl

/-- One round sets the parent of the directory it visits, and no other. -/
theorem parent_directoryParent {i : ℕ} (h : Adopting env v₀ i v) (hi : i < v.inodes.length) :
    (∀ x, x ≠ v.inodes[i] → ((directoryParent env i v).heap.obj x).parent = (v.heap.obj x).parent) ∧
      ((directoryParent env i v).heap.obj v.inodes[i]).parent
        = (adopted env v₀ (directoryParent env i v).inodes v.inodes[i]).getD
            (v.heap.obj v.inodes[i]).parent := by
  obtain ⟨hnot, hdir⟩ := directoryParent_spec h.recovering.indexed (List.getElem?_eq_getElem hi)
  have hsplit : v.inodes = v.inodes.take i ++ v.inodes[i] :: v.inodes.drop (i + 1) := by
    rw [← List.drop_eq_getElem_cons hi, List.take_append_drop]
  generalize v.inodes[i] = c at hnot hdir hsplit ⊢
  have hframe := h.recovering.frame
  have hdirs : v.heap.isDir c ↔ v₀.heap.isDir c := by rw [Heap.isDir, Heap.isDir, hframe.kind]
  by_cases hd : v.heap.isDir c
  · obtain ⟨w, hw, heq⟩ := hdir hd
    have hpar : ∀ x, (w.heap.obj x).parent = (v.heap.obj x).parent :=
      fun x => congrArg Prod.fst (congrFun hw.links x)
    rw [hframe.parentDiNumber] at hw heq
    obtain ⟨hrec, hin⟩ := h.recovering.asked hw
    cases hl : w.lookup env (v₀.heap.obj c).parentDiNumber with
    | none =>
      have hadopt : adopted env v₀ w.inodes c = none := by
        rw [adopted, if_pos (hdirs.mp hd), ← lookup_frame hrec.frame, hl]
        rfl
      simp only [hl] at heq
      rw [heq, hadopt]
      exact ⟨fun x _ => hpar x, hpar c⟩
    | some p =>
      obtain ⟨hset, _⟩ := adopted_asked h hsplit (hdirs.mp hd) hw hl
      simp only [hl, hframe.kind, hframe.number] at heq
      by_cases hfile : (v₀.heap.obj p).kind = .file ∧
          (v₀.heap.obj c).parentDiNumber ∈ v.inodes.map v₀.heap.number
      · rw [if_pos hfile] at heq
        rw [heq]
        refine ⟨fun x _ => hpar x, ?_⟩
        rw [hpar, adopted_getD_of_file h hsplit (hdirs.mp hd) hw hl hfile]
      · rw [if_neg hfile] at heq
        have hlinks : ∀ x, ((w.setParent c p).heap.obj x).parent
            = if x = c then p else (w.heap.obj x).parent := fun x => Heap.parent_setParent x
        rw [heq]
        refine ⟨fun x hx => ?_, ?_⟩
        · rw [hlinks, if_neg hx, hpar]
        · show _ = (adopted env v₀ w.inodes c).getD _
          rw [hlinks, if_pos rfl, hset hfile]
          rfl
  · rw [hnot hd, adopted, if_neg (fun h => hd (hdirs.mpr h))]
    exact ⟨fun _ _ => rfl, rfl⟩

theorem Adopting.step {i : ℕ} (h : Adopting env v₀ i v) (hi : i < v.inodes.length) :
    Adopting env v₀ (i + 1) (directoryParent env i v) := by
  obtain ⟨hrec, hin⟩ := directoryParent_step h.recovering hi
  obtain ⟨hother, hself⟩ := parent_directoryParent h hi
  have hexp := h.explored.step (fun _ _ => store_number) hi
  have hg : Grown v₀.heap.number (v₀.store env) v.inodes (directoryParent env i v).inodes := by
    rw [hin]
    exact grown_grow (fun _ _ => store_number) i v.inodes
  have hstable : ∀ x ∈ v.inodes.take i,
      adopted env v₀ (directoryParent env i v).inodes x = adopted env v₀ v.inodes x :=
    fun x hx => h.stable hrec hg hx
  have htake :
      (directoryParent env i v).inodes.take (i + 1) = v.inodes.take i ++ [v.inodes[i]] := by
    rw [hin]
    exact take_grow (fun _ _ => store_number) hi
  refine ⟨hrec, by rw [hin]; exact hexp, fun x => ?_⟩
  have hold := h.parent x
  rw [htake]
  by_cases hx : x = v.inodes[i]
  · subst hx
    rw [if_pos (List.mem_append_right _ (List.mem_singleton_self _)), hself, hold]
    by_cases hbefore : v.inodes[i] ∈ v.inodes.take i
    · rw [if_pos hbefore, hstable _ hbefore]
      cases adopted env v₀ v.inodes v.inodes[i] <;> rfl
    · rw [if_neg hbefore]
  · rw [hother x hx, hold]
    by_cases hbefore : x ∈ v.inodes.take i
    · rw [if_pos hbefore, if_pos (List.mem_append_left _ hbefore), hstable x hbefore]
    · have hnot : x ∉ v.inodes.take i ++ [v.inodes[i]] := fun hm =>
        (List.mem_append.mp hm).elim hbefore (fun h => hx (List.mem_singleton.mp h))
      rw [if_neg hbefore, if_neg hnot]

/-! ### Claimants -/

def recovered (env : Env) (names : Ptr → List InodeName) (v : InodeVector) : List Ptr :=
  closure v.heap.number (v.store env) (listed names) v.invalidatedInodes.length
    (parentClosure env v)

/-- Who claims an inode: the last directory that lists it, or else the parent that it
adopted itself. -/
def claimant (env : Env) (names : Ptr → List InodeName) (v : InodeVector) (x : Ptr) : Option Ptr :=
  match lastFor (target (newest env v.heap (recovered env names v)))
      ((recovered env names v).flatMap (claims names)) x with
  | some c => some c.1
  | none => if x ∈ parentClosure env v then adopted env v (parentClosure env v) x else none

theorem mem_of_adopted {l : List Ptr} {x : Ptr} (ha : adopted env v l x = some p) : p ∈ l := by
  unfold adopted at ha
  split at ha
  · obtain ⟨hp, _⟩ := Option.filter_eq_some_iff.mp ha
    exact (newest_mem hp).1
  · cases ha

theorem grown_parentClosure :
    Grown v.heap.number (v.store env) (parentClosure env v) (recovered env names v) := by
  have hexp : Explored v.heap.number (v.store env) (listed names) (parentClosure env v)
      (recovered env names v).length (recovered env names v) :=
    closure_explored (fun _ _ => store_number) store_mem (parentClosure env v)
  exact hexp.grown

theorem grown_recovered : Grown v.heap.number (v.store env) v.inodes (recovered env names v) :=
  (parentClosure_explored env v).grown.trans grown_parentClosure

theorem nodup_recovered (hnodup : v.inodes.Nodup) : (recovered env names v).Nodup :=
  grown_recovered.nodup_list hnodup

theorem subset_recovered : parentClosure env v ⊆ recovered env names v := grown_parentClosure.subset

theorem mem_of_claimant {x : Ptr} (hc : claimant env names v x = some p) :
    p ∈ recovered env names v := by
  unfold claimant at hc
  split at hc
  · rename_i c hlast
    obtain ⟨dir, hdir, hmem⟩ := List.mem_flatMap.mp (lastFor_mem hlast).1
    obtain ⟨e, _, rfl⟩ := List.mem_map.mp hmem
    rw [← Option.some.inj hc]
    exact hdir
  · split at hc
    · exact subset_recovered (mem_of_adopted hc)
    · cases hc

theorem parent_findDirectoryParents (hv : v.Indexed env)
    (hw : findDirectoryParents env v = some w) (x : Ptr) :
    (w.heap.obj x).parent = if x ∈ w.inodes then
      (adopted env v w.inodes x).getD (v.heap.obj x).parent else (v.heap.obj x).parent := by
  obtain ⟨j, hsteps, hle⟩ := forSteps_of_forSize hw
  have h := hsteps.inv (I := Adopting env v) (fun i w h hi => h.step hi) (.start hv)
  have hx := h.parent x
  rw [List.take_of_length_le hle] at hx
  exact hx

/-- **The parents that the recoverer sets are the claimants.** -/
theorem parentOf_recovered (names : Ptr → List InodeName) (hv : v.Indexed env)
    (hunlinked : ∀ p, (v.heap.obj p).parent = NULL) :
    ∃ w u, findDirectoryParents env v = some w ∧
      findFileParentsAndNames env names w = some u ∧
      u.inodes = recovered env names v ∧ u.heap.parentOf = claimant env names v := by
  obtain ⟨w, hw, hwrec, hwin⟩ := findDirectoryParents_spec hv
  obtain ⟨u, hu, hurec, huin, hparent, _⟩ := findFileParentsAndNames_spec names hwrec.indexed
  have hin : u.inodes = recovered env names v := by
    rw [huin, nameClosure, hwrec.frame.number, hwrec.store, hwrec.invalidated, hwin, recovered]
  refine ⟨w, u, hw, hu, hin, ?_⟩
  funext x
  have hx := hparent x
  rw [linked, foldl_assign, newest_frame hwrec.frame, hin] at hx
  rw [claimant, Heap.parentOf]
  cases hlast : lastFor (target (newest env v.heap (recovered env names v)))
      ((recovered env names v).flatMap (claims names)) x with
  | some c =>
    rw [hlast] at hx
    have hmem : c.1 ∈ recovered env names v :=
      mem_of_claimant (x := x) (by rw [claimant, hlast])
    have hne : c.1 ≠ NULL := by
      intro hn
      rw [hn, ← hin] at hmem
      exact hurec.indexed.inodes hmem
    have hp : (u.heap.obj x).parent = c.1 := hx
    rw [hp, if_neg hne]
  | none =>
    rw [hlast] at hx
    have hp : (u.heap.obj x).parent = (w.heap.obj x).parent := hx
    rw [hp, parent_findDirectoryParents hv hw, hunlinked, hwin]
    by_cases hmem : x ∈ parentClosure env v
    · rw [if_pos hmem]
      cases ha : adopted env v (parentClosure env v) x with
      | none => simp [hmem]
      | some q =>
        have hne : q ≠ NULL := by
          rintro rfl
          refine hwrec.indexed.inodes ?_
          rw [hwin]
          exact mem_of_adopted ha
        simp [hmem, hne]
    · simp [hmem]

/-! ### Paths -/

/-- After both functions the parents of every inode end, and `get_full_path` returns. -/
def PathsEnd (legal : List Char → Bool) (env : Env) (names : Ptr → List InodeName)
    (v : InodeVector) : Prop :=
  ∃ w u, findDirectoryParents env v = some w ∧ findFileParentsAndNames env names w = some u ∧
    ∀ x ∈ u.inodes, Ends u.heap.parentOf x ∧ ∃ fuel, (getFullPath legal fuel x u.heap).isSome

/-- **All paths end exactly if the claimants form no cycle** of two inodes or more. -/
theorem pathsEnd_iff (legal : List Char → Bool) (names : Ptr → List InodeName)
    (hv : v.Indexed env) (hunlinked : ∀ p, (v.heap.obj p).parent = NULL) :
    PathsEnd legal env names v ↔
      ¬ ∃ x ∈ recovered env names v, Relation.TransGen (Link (claimant env names v)) x x := by
  obtain ⟨w, u, hw, hu, hin, hparent⟩ := parentOf_recovered names hv hunlinked
  have hclosed : ∀ x ∈ recovered env names v, ∀ p, claimant env names v x = some p →
      p ∈ recovered env names v := fun _ _ _ hc => mem_of_claimant hc
  rw [← forall_ends_iff hclosed, ← hin, ← hparent]
  constructor
  · rintro ⟨w', u', hw', hu', hends⟩
    rw [hw] at hw'
    obtain rfl := Option.some.inj hw'
    rw [hu] at hu'
    obtain rfl := Option.some.inj hu'
    exact fun x hx => (hends x hx).1
  · intro hends
    exact ⟨w, u, hw, hu, fun x hx => ⟨hends x hx, getFullPath_iff.mpr (hends x hx)⟩⟩

/-- Directories 3 and 4, each of which has the other as its parent. -/
def eachOther : InodeVector :=
  ((start false).addBuilt addInode (built twoDirs 0)).addBuilt addInode (built twoDirs 512)

theorem sound_eachOther : eachOther.Sound twoDirs := by
  have hone := (sound_start twoDirs false).step
    (.addInode (built twoDirs 0) (fun ino hino => built_new hino))
  exact hone.step (.addInode (built twoDirs 512) (fun ino hino => built_new hino))

theorem indexed_eachOther : eachOther.Indexed twoDirs :=
  sound_eachOther.indexed (by decide) (by decide)

def rootNames (p : Ptr) : List InodeName := if p = 2 then [⟨['r'], 4⟩] else []

theorem pathsEnd_eachOther : PathsEnd (fun _ => true) twoDirs rootNames eachOther := by
  refine (pathsEnd_iff _ rootNames indexed_eachOther sound_eachOther.unlinked).mpr ?_
  rintro ⟨x, hx, hc⟩
  have htwo : Ends (claimant twoDirs rootNames eachOther) 2 := .self (by decide)
  have hone : Ends (claimant twoDirs rootNames eachOther) 1 := .link (by decide) htwo
  have hall : ∀ y ∈ recovered twoDirs rootNames eachOther,
      Ends (claimant twoDirs rootNames eachOther) y := by
    have hlist : recovered twoDirs rootNames eachOther = [1, 2] := by decide
    rw [hlist]
    simp [hone, htwo]
  exact (hall x hx).not_cycle hc

/-- **Two directories in each other have no path.** -/
theorem not_pathsEnd_eachOther : ¬ PathsEnd (fun _ => true) twoDirs (fun _ => []) eachOther := by
  rintro ⟨w', u', hw', hu', hends⟩
  obtain ⟨w, u, hw, hu, hin, hparent⟩ :=
    parentOf_recovered (fun _ => []) indexed_eachOther sound_eachOther.unlinked
  rw [hw] at hw'
  obtain rfl := Option.some.inj hw'
  rw [hu] at hu'
  obtain rfl := Option.some.inj hu'
  have hone : Link (claimant twoDirs (fun _ => []) eachOther) 1 2 := ⟨by decide, by decide⟩
  have htwo : Link (claimant twoDirs (fun _ => []) eachOther) 2 1 := ⟨by decide, by decide⟩
  have hmem : 1 ∈ u.inodes := by
    rw [hin]
    decide
  have hend := (hends 1 hmem).1
  rw [hparent] at hend
  exact hend.not_cycle ((Relation.TransGen.single hone).tail htwo)

end Recoverer

end Jfsrec
