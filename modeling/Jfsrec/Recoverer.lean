import Jfsrec.Lib.Closure
import Jfsrec.Lib.Links
import Jfsrec.Selection

/-!
# Recoverer

`find_directory_parents` and `find_file_parents_and_names` of `recoverer.cpp`:
two loops over a vector that grows while it is iterated, because an invalidated
inode that somebody names is added again ("sane-by-association").  What
`extract_inode_names` finds in a directory is a parameter `names`; it reads the
device and writes nothing, and is empty for any other inode.

Both functions look a number up in the same way, and `Asked` says what a lookup
does: it is one `Lib.request` on the inodes.  `directoryParent_spec` and
`nameEntry_spec` are all that later modules know about the two loop bodies.
-/

namespace Jfsrec

open Lib

structure InodeName where
  name : List Char
  diNumber : ℕ
deriving DecidableEq

/-! ### Parents and names -/

namespace Heap

def setName (h : Heap) (p : Ptr) (n : List Char) : Heap := h.set p { h.obj p with name := n }

/-- `Inode::set_parent`; that of a `DirInode` enters it among the siblings of the
parent, if the parent is one too. -/
def setParent (h : Heap) (p i : Ptr) : Heap :=
  let h := h.set p { h.obj p with parent := i }
  if (h.obj p).kind = .dir ∧ i ≠ NULL ∧ (h.obj i).kind = .dir then
    h.set i { h.obj i with siblings := (h.obj i).siblings ++ [p] }
  else h

end Heap

namespace InodeVector

def setName (v : InodeVector) (p : Ptr) (n : List Char) : InodeVector :=
  { v with heap := v.heap.setName p n }

def setParent (v : InodeVector) (p i : Ptr) : InodeVector :=
  { v with heap := v.heap.setParent p i }

end InodeVector

namespace Recoverer

/-- One round of the loop that compares `di_otime`s.  The inode it calls `newest`
is the one allocated first. -/
def newestStep (env : Env) (s : Ptr × Timestruc × Heap) (p : Ptr) : Ptr × Timestruc × Heap :=
  let r := s.2.2.getDinode env p
  if r.1.diOtime.lt s.2.1 then (p, r.1.diOtime, r.2) else (s.1, s.2.1, r.2)

/-- "Sane-by-association", where the loop starts at `j`: the inode that was added,
if there was one. -/
def saneByAssociation (env : Env) (j di : ℕ) (v : InodeVector) : Option Ptr × InodeVector :=
  match v.getInvalidatedByDiNumber di with
  | [] => (none, v)
  | p :: ps =>
      let r := v.heap.getDinode env p
      let s := ((p :: ps).drop j).foldl (newestStep env) (p, r.1.diOtime, r.2)
      (some s.1, { v with heap := s.2.2 }.addInode s.1)

/-! ### find_directory_parents -/

def directoryParent (env : Env) (i : ℕ) (v : InodeVector) : InodeVector :=
  let c := v.inodes.getD i NULL
  if (v.heap.obj c).kind = .dir then
    let di := (v.heap.obj c).parentDiNumber
    let r := v.getByDiNumber env di
    if r.1 ≠ NULL then
      if (r.2.heap.obj r.1).kind = .file then r.2 else r.2.setParent c r.1
    else
      match saneByAssociation env 1 di r.2 with
      | (some p, w) => w.setParent c p
      | (none, w) => w
  else v

def findDirectoryParents (env : Env) (v : InodeVector) : Option InodeVector :=
  forSize (fun v => v.inodes.length) (directoryParent env)
    (v.inodes.length + v.invalidatedInodes.length + 1) 0 v

/-! ### find_file_parents_and_names -/

def nameEntry (env : Env) (dir : Ptr) (v : InodeVector) (e : InodeName) : InodeVector :=
  let r := v.getByDiNumber env e.diNumber
  if r.1 ≠ NULL then (r.2.setName r.1 e.name).setParent r.1 dir
  else
    match saneByAssociation env 0 e.diNumber r.2 with
    | (some p, w) => (w.setName p e.name).setParent p dir
    | (none, w) => w

def nameEntries (env : Env) (names : Ptr → List InodeName) (i : ℕ) (v : InodeVector) :
    InodeVector :=
  let dir := v.inodes.getD i NULL
  (names dir).foldl (nameEntry env dir) v

/-- Not a name for a file, or one that would break the output. -/
def badName (n : List Char) : Bool := n.isEmpty || n.contains '\n' || n.contains '\r'

def replaceName (h : Heap) (p : Ptr) : Heap :=
  if badName (h.obj p).name then h.setName p (Nat.toDigits 10 (h.obj p).diNumber) else h

def originalRoot (env : Env) (v : InodeVector) : InodeVector :=
  let r := v.getByDiNumber env 2
  if r.1 ≠ NULL then r.2.setName r.1 "original_root".toList else r.2

def findFileParentsAndNames (env : Env) (names : Ptr → List InodeName) (v : InodeVector) :
    Option InodeVector :=
  (forSize (fun v => v.inodes.length) (nameEntries env names)
    (v.inodes.length + v.invalidatedInodes.length + 1) 0 v).map
      (fun v => originalRoot env { v with heap := v.inodes.foldl replaceName v.heap })

end Recoverer

/-! ### What the recovery leaves alone -/

namespace Heap

variable {env : Env} {h h' h'' : Heap} {p i : Ptr}

/-- The inodes are those the scan found; parents, names and scratch state may
differ. -/
structure Frame (env : Env) (h h' : Heap) : Prop where
  view : h'.view env = h.view env
  coherent : h.Coherent env → h'.Coherent env

def number (h : Heap) (p : Ptr) : ℕ := (h.obj p).diNumber

def isDir (h : Heap) (p : Ptr) : Prop := (h.obj p).kind = .dir

instance (h : Heap) (p : Ptr) : Decidable (h.isDir p) := inferInstanceAs (Decidable (_ = _))

def links (h : Heap) (p : Ptr) : Ptr × List Char := ((h.obj p).parent, (h.obj p).name)

def siblings (h : Heap) (p : Ptr) : List Ptr := (h.obj p).siblings

theorem Frame.refl : Frame env h h := ⟨rfl, id⟩

theorem Frame.trans (a : Frame env h h') (b : Frame env h' h'') : Frame env h h'' :=
  ⟨b.view.trans a.view, fun hc => b.coherent (a.coherent hc)⟩

theorem Same.frame (a : Same env h h') : Frame env h h' := ⟨a.view, a.coherent⟩

theorem Same.links (a : Same env h h') : h'.links = h.links := by
  funext p
  have hp : (h'.core p).parent = (h.core p).parent := by rw [a.core]
  have hn : (h'.core p).name = (h.core p).name := by rw [a.core]
  exact Prod.ext hp hn

theorem Same.siblings (a : Same env h h') : h'.siblings = h.siblings := by
  funext p
  have hp : (h'.core p).siblings = (h.core p).siblings := by rw [a.core]
  exact hp

theorem Frame.number (a : Frame env h h') : h'.number = h.number := by
  funext p
  exact congrArg View.diNumber (congrFun a.view p)

theorem Frame.kind (a : Frame env h h') (p : Ptr) : (h'.obj p).kind = (h.obj p).kind :=
  congrArg View.kind (congrFun a.view p)

theorem Frame.parentDiNumber (a : Frame env h h') (p : Ptr) :
    (h'.obj p).parentDiNumber = (h.obj p).parentDiNumber :=
  congrArg View.parentDiNumber (congrFun a.view p)

theorem Frame.otime (a : Frame env h h') :
    InodeVector.otime env h' = InodeVector.otime env h := by
  funext p
  have hp : (h'.view env p).otime = (h.view env p).otime :=
    congrArg View.otime (congrFun a.view p)
  exact hp

theorem frame_set {ino : Inode} (hk : ino.kind = (h.obj p).kind)
    (ho : ino.byteOffset = (h.obj p).byteOffset) (hn : ino.diNumber = (h.obj p).diNumber)
    (hpn : ino.parentDiNumber = (h.obj p).parentDiNumber) (hd : ino.dinode = (h.obj p).dinode) :
    Frame env h (h.set p ino) := by
  have hoff : ∀ q, ((h.set p ino).obj q).byteOffset = (h.obj q).byteOffset := by
    intro q
    rw [set_obj]
    split
    · rename_i hq; rw [ho, hq]
    · rfl
  constructor
  · funext q
    simp only [Heap.view, dinodeOf, View.mk.injEq, set_obj]
    split
    · rename_i hq
      rw [hq]
      exact ⟨hk, ho, hn, hpn, congrArg env.readDinode ho⟩
    · exact ⟨rfl, rfl, rfl, rfl, rfl⟩
  · intro hc q d hq
    rw [dinodeOf, hoff]
    rw [set_obj] at hq
    split at hq
    · rename_i hqp
      rw [hd, ← hqp] at hq
      exact hc q d hq
    · exact hc q d hq

theorem frame_setName (n : List Char) : Frame env h (h.setName p n) :=
  frame_set rfl rfl rfl rfl rfl

theorem frame_setParent : Frame env h (h.setParent p i) := by
  have h1 : Frame env h (h.set p { h.obj p with parent := i }) := frame_set rfl rfl rfl rfl rfl
  simp only [setParent]
  split
  · exact h1.trans (frame_set rfl rfl rfl rfl rfl)
  · exact h1

theorem links_set (ino : Inode) :
    (h.set p ino).links = Function.update h.links p (ino.parent, ino.name) := by
  funext q
  rw [Function.update_apply, links, set_obj]
  split <;> rfl

theorem links_setName (n : List Char) :
    (h.setName p n).links = Function.update h.links p ((h.obj p).parent, n) := links_set _

theorem links_setParent :
    (h.setParent p i).links = Function.update h.links p (i, (h.obj p).name) := by
  have h1 : (h.set p { h.obj p with parent := i }).links
      = Function.update h.links p (i, (h.obj p).name) := links_set _
  simp only [setParent]
  split
  · rw [links_set, ← h1]
    exact Function.update_eq_self i _
  · exact h1

theorem siblings_set (ino : Inode) :
    (h.set p ino).siblings = Function.update h.siblings p ino.siblings := by
  funext q
  rw [Function.update_apply, siblings, set_obj]
  split <;> rfl

theorem siblings_setName (n : List Char) : (h.setName p n).siblings = h.siblings := by
  rw [setName, siblings_set]
  exact Function.update_eq_self p _

/-- The entry that `set_parent` makes: a directory among the siblings of another. -/
def entry (h : Heap) (p i : Ptr) : List (Ptr × Ptr) :=
  if h.isDir p ∧ i ≠ NULL ∧ h.isDir i then [(p, i)] else []

theorem siblings_setParent :
    (h.setParent p i).siblings = (h.entry p i).foldl enlist h.siblings := by
  let k := h.set p { h.obj p with parent := i }
  have hk : k.siblings = h.siblings := by
    rw [siblings_set]
    exact Function.update_eq_self p _
  have hdir : ∀ q, k.isDir q ↔ h.isDir q := by
    intro q
    rw [isDir, set_obj]
    split
    · rename_i hq; rw [hq]; rfl
    · rfl
  show Heap.siblings (if k.isDir p ∧ i ≠ NULL ∧ k.isDir i then
    k.set i { k.obj i with siblings := k.siblings i ++ [p] } else k) = _
  have hdirs : (k.isDir p ∧ i ≠ NULL ∧ k.isDir i) ↔ h.isDir p ∧ i ≠ NULL ∧ h.isDir i := by
    rw [hdir, hdir]
  rw [entry]
  by_cases hd : h.isDir p ∧ i ≠ NULL ∧ h.isDir i
  · rw [if_pos (hdirs.mpr hd), if_pos hd, siblings_set, hk]
    rfl
  · rw [if_neg (fun hn => hd (hdirs.mp hn)), if_neg hd]
    exact hk

theorem parent_setParent (q : Ptr) :
    ((h.setParent p i).obj q).parent = if q = p then i else (h.obj q).parent := by
  have hq : ((h.setParent p i).links q).1
      = (Function.update h.links p (i, (h.obj p).name) q).1 := by
    rw [links_setParent]
  rw [Function.update_apply, apply_ite Prod.fst] at hq
  exact hq

end Heap

namespace InodeVector

variable {env : Env} {h h' : Heap} {v w : InodeVector}

theorem newest_frame (a : Heap.Frame env h h') : newest env h' = newest env h := by
  funext ps di
  have hn : ∀ p, (h'.obj p).diNumber = (h.obj p).diNumber := congrFun a.number
  simp only [newest, a.otime, hn]

def oldest (env : Env) (h : Heap) (ps : List Ptr) (di : ℕ) : Option Ptr :=
  (ps.filter (fun p => (h.obj p).diNumber == di)).argmin (otime env h)

theorem oldest_frame (a : Heap.Frame env h h') : oldest env h' = oldest env h := by
  funext ps di
  have hn : ∀ p, (h'.obj p).diNumber = (h.obj p).diNumber := congrFun a.number
  simp only [oldest, a.otime, hn]

theorem oldest_mem {ps : List Ptr} {di : ℕ} {p : Ptr} (hp : oldest env h ps di = some p) :
    p ∈ ps ∧ h.number p = di := by
  have hm := List.argmin_mem (f := otime env h) hp
  simpa [Heap.number] using hm

theorem oldest_eq_none {ps : List Ptr} {di : ℕ} :
    oldest env h ps di = none ↔ di ∉ ps.map h.number := by
  rw [oldest, List.argmin_eq_none, List.filter_eq_nil_iff]
  simp [Heap.number]

/-- What invalidated inode is added for a number. -/
def store (env : Env) (v : InodeVector) (di : ℕ) : Option Ptr :=
  oldest env v.heap v.invalidatedInodes di

def lookup (env : Env) (v : InodeVector) (di : ℕ) : Option Ptr := newest env v.heap v.inodes di

theorem store_frame (a : Heap.Frame env v.heap w.heap)
    (hinv : w.invalidatedInodes = v.invalidatedInodes) : w.store env = v.store env := by
  funext di
  rw [store, store, hinv, oldest_frame a]

theorem lookup_frame (a : Heap.Frame env v.heap w.heap) :
    w.lookup env = newest env v.heap w.inodes := by
  funext di
  rw [lookup, newest_frame a]

theorem lookup_eq_none {di : ℕ} : v.lookup env di = none ↔ di ∉ v.inodes.map v.heap.number := by
  rw [lookup, newest_eq_none]
  simp [Heap.number]

/-- A vector whose index is right and whose members are objects. -/
structure Indexed (env : Env) (v : InodeVector) : Prop where
  coherent : v.heap.Coherent env
  index : v.IndexValid env
  inodes : NULL ∉ v.inodes
  invalidated : NULL ∉ v.invalidatedInodes

theorem Indexed.of_frame (hv : v.Indexed env) (a : Heap.Frame env v.heap h) :
    { v with heap := h }.Indexed env where
  coherent := a.coherent hv.coherent
  index hok di := by
    rw [newest_frame a]
    exact hv.index hok di
  inodes := hv.inodes
  invalidated := hv.invalidated

/-- `w` is `v` after somebody asked for a number. -/
structure Asked (env : Env) (v : InodeVector) (di : ℕ) (w : InodeVector) : Prop where
  frame : Heap.Frame env v.heap w.heap
  links : w.heap.links = v.heap.links
  siblings : w.heap.siblings = v.heap.siblings
  inodes : w.inodes = request v.heap.number (v.store env) v.inodes di
  invalidated : w.invalidatedInodes = v.invalidatedInodes
  indexed : w.Indexed env

end InodeVector

/-! ### Looking a number up -/

namespace Recoverer

open InodeVector

variable {env : Env} {v w : InodeVector}

theorem foldl_newestStep (ps : List Ptr) : ∀ {seen : List Ptr} {h : Heap} {q : Ptr},
    h.Coherent env → seen.argmin (otime env h) = some q →
    ∃ r h', ps.foldl (newestStep env) (q, (h.dinodeOf env q).diOtime, h)
        = (r, (h.dinodeOf env r).diOtime, h') ∧
      Heap.Same env h h' ∧ (seen ++ ps).argmin (otime env h) = some r := by
  induction ps with
  | nil =>
    intro seen h q _ hq
    exact ⟨q, h, rfl, .refl, by rw [List.append_nil, hq]⟩
  | cons p ps ih =>
    intro seen h q hc hq
    obtain ⟨h1, hget, hs⟩ := Heap.getDinode_eq hc p
    have hk : otime env h1 = otime env h := otime_same hs.toSame
    have hstep : newestStep env (q, (h.dinodeOf env q).diOtime, h) p
        = if otime env h p < otime env h q then (p, (h.dinodeOf env p).diOtime, h1)
          else (q, (h.dinodeOf env q).diOtime, h1) := by
      simp only [newestStep, hget, Timestruc.lt_iff]
      rfl
    have hseen : (seen ++ [p]).argmin (otime env h)
        = if otime env h p < otime env h q then some p else some q := by
      rw [List.argmin_concat, hq]
    rw [List.foldl_cons, hstep]
    have hcont : ∀ r, (seen ++ [p]).argmin (otime env h) = some r →
        ∃ r' h', ps.foldl (newestStep env) (r, (h.dinodeOf env r).diOtime, h1)
            = (r', (h.dinodeOf env r').diOtime, h') ∧
          Heap.Same env h h' ∧ (seen ++ p :: ps).argmin (otime env h) = some r' := by
      intro r hr
      rw [← hk] at hr
      obtain ⟨r', h', hfold, hs', hmin⟩ := ih (hs.coherent hc) hr
      rw [hs.dinodeOf, hs.dinodeOf] at hfold
      refine ⟨r', h', hfold, hs.toSame.trans hs', ?_⟩
      rw [hk, List.append_assoc] at hmin
      exact hmin
    by_cases hlt : otime env h p < otime env h q
    · rw [if_pos hlt] at hseen ⊢
      exact hcont p hseen
    · rw [if_neg hlt] at hseen ⊢
      exact hcont q hseen

theorem argmin_cons_cons (f : Ptr → ℕ ×ₗ ℕ) (p : Ptr) (ps : List Ptr) :
    (p :: p :: ps).argmin f = (p :: ps).argmin f := by
  rw [List.argmin_cons, List.argmin_cons]
  cases ps.argmin f with
  | none => simp
  | some q =>
    by_cases h : f q < f p
    · simp [h]
    · simp [h]

theorem store_eq_argmin (env : Env) (v : InodeVector) (di : ℕ) :
    v.store env di = (v.getInvalidatedByDiNumber di).argmin (otime env v.heap) := rfl

/-- Adding what the store has answers the question. -/
theorem asked_addInode {di : ℕ} {h : Heap} {r : Ptr} (hv : v.Indexed env)
    (hs : Heap.Same env v.heap h) (hun : di ∉ v.inodes.map v.heap.number)
    (hr : v.store env di = some r) : v.Asked env di ({ v with heap := h }.addInode r) := by
  have hidx := hv.of_frame hs.frame
  refine ⟨?_, ?_, ?_, ?_, ?_, ?_, ?_, ?_, ?_⟩
  · rw [addInode_heap]
    exact hs.frame
  · rw [addInode_heap]
    exact hs.links
  · rw [addInode_heap]
    exact hs.siblings
  · rw [addInode_inodes, request_of_some hun hr]
  · rw [addInode_invalidatedInodes]
  · rw [addInode_heap]
    exact hidx.coherent
  · exact indexValid_addInode hidx.index r
  · rw [addInode_inodes]
    intro hm
    rcases List.mem_append.mp hm with hm | hm
    · exact hv.inodes hm
    · obtain ⟨hmem, _⟩ := oldest_mem hr
      rw [← List.mem_singleton.mp hm] at hmem
      exact hv.invalidated hmem
  · rw [addInode_invalidatedInodes]
    exact hv.invalidated

/-- **Sane-by-association adds what the store has**, wherever the loop starts. -/
theorem saneByAssociation_spec {j di : ℕ} (hj : j ≤ 1) (hv : v.Indexed env)
    (hun : di ∉ v.inodes.map v.heap.number) :
    ∃ w, saneByAssociation env j di v = (v.store env di, w) ∧ v.Asked env di w := by
  have hstore := store_eq_argmin env v di
  unfold saneByAssociation
  cases hl : v.getInvalidatedByDiNumber di with
  | nil =>
    have hnone : v.store env di = none := by
      rw [hstore, hl]
      rfl
    exact ⟨v, by rw [hnone], .refl, rfl, rfl, (request_of_none hnone).symm, rfl, hv⟩
  | cons p ps =>
    obtain ⟨h1, hget, hs1⟩ := Heap.getDinode_eq hv.coherent p
    have hfirst : [p].argmin (otime env h1) = some p := rfl
    obtain ⟨r, h', hfold, hs2, hmin⟩ :=
      foldl_newestStep ((p :: ps).drop j) (hs1.coherent hv.coherent) hfirst
    have hsome : v.store env di = some r := by
      rw [hstore, hl, ← hmin, otime_same hs1.toSame]
      rcases Nat.le_one_iff_eq_zero_or_eq_one.mp hj with rfl | rfl
      · exact (argmin_cons_cons _ p ps).symm
      · rfl
    rw [hs1.dinodeOf] at hfold
    simp only [hget, hfold, hsome]
    exact ⟨_, rfl, asked_addInode hv (hs1.toSame.trans hs2) hun hsome⟩

/-- A number somebody has is found as it was found before. -/
theorem lookup_asked {di : ℕ} (h : di ∈ v.inodes.map v.heap.number) (hw : v.Asked env di w) :
    w.lookup env di = v.lookup env di := by
  rw [lookup_frame hw.frame, hw.inodes, request_of_known h, lookup]

/-- A number nobody has is found as the store has it. -/
theorem lookup_asked_of_not {di : ℕ} (h : di ∉ v.inodes.map v.heap.number)
    (hw : v.Asked env di w) : w.lookup env di = v.store env di := by
  have hnone : newest env v.heap v.inodes di = none := lookup_eq_none.mpr h
  rw [lookup_frame hw.frame, hw.inodes]
  cases hs : v.store env di with
  | none => rw [request_of_none hs, hnone]
  | some p =>
    have hp := oldest_mem hs
    rw [request_of_some h hs, newest_append, hnone]
    exact if_pos hp.2

theorem getByDiNumber_indexed (hv : v.Indexed env) (di : ℕ) :
    ∃ u, v.getByDiNumber env di = ((v.lookup env di).getD NULL, u) ∧
      Heap.Same env v.heap u.heap ∧ u.inodes = v.inodes ∧
      u.invalidatedInodes = v.invalidatedInodes ∧ u.Indexed env := by
  obtain ⟨hget, hs, hin, hinv, _, hidx⟩ := getByDiNumber_spec hv.coherent hv.index di
  refine ⟨_, Prod.ext hget rfl, hs.toSame, hin, hinv, hs.coherent hv.coherent, hidx, ?_, ?_⟩
  · rw [hin]
    exact hv.inodes
  · rw [hinv]
    exact hv.invalidated

/-- **A lookup**: `get_by_di_number`, and sane-by-association where it finds
nothing. -/
theorem ask_spec {j : ℕ} (hj : j ≤ 1) (hv : v.Indexed env) (di : ℕ) :
    ∃ w, v.Asked env di w ∧
      (di ∈ v.inodes.map v.heap.number ∧ (∃ p, p ≠ NULL ∧ w.lookup env di = some p ∧
          v.getByDiNumber env di = (p, w)) ∨
        di ∉ v.inodes.map v.heap.number ∧ ∃ u, v.getByDiNumber env di = (NULL, u) ∧
          saneByAssociation env j di u = (w.lookup env di, w)) := by
  obtain ⟨u, hget, hs, hin, hinv, hu⟩ := getByDiNumber_indexed hv di
  by_cases hd : di ∈ v.inodes.map v.heap.number
  · have hasked : v.Asked env di u :=
      ⟨hs.frame, hs.links, hs.siblings, by rw [request_of_known hd]; exact hin, hinv, hu⟩
    obtain ⟨p, hp⟩ := Option.ne_none_iff_exists'.mp (fun hn => lookup_eq_none.mp hn hd)
    refine ⟨u, hasked, Or.inl ⟨hd, p, ?_, ?_, by rw [hget, hp]; rfl⟩⟩
    · rintro rfl
      exact hv.inodes (newest_mem hp).1
    · rw [lookup_asked hd hasked, hp]
  · have hstore : u.store env = v.store env := store_frame hs.frame hinv
    have hun : di ∉ u.inodes.map u.heap.number := by
      rw [hin, hs.frame.number]
      exact hd
    obtain ⟨w, hw, hasked⟩ := saneByAssociation_spec hj hu hun
    have hall : v.Asked env di w := by
      refine ⟨hs.frame.trans hasked.frame, hasked.links.trans hs.links,
        hasked.siblings.trans hs.siblings, ?_, hasked.invalidated.trans hinv, hasked.indexed⟩
      rw [hasked.inodes, hin, hs.frame.number, hstore]
    refine ⟨w, hall, Or.inr ⟨hd, u, ?_, ?_⟩⟩
    · rw [hget, lookup_eq_none.mpr hd]
      rfl
    · rw [hw, hstore, lookup_asked_of_not hd hall]

/-! ### The loop bodies -/

/-- A directory asks for its parent, and takes what is found, except that a regular
file must not have been there before. -/
theorem directoryParent_spec (hv : v.Indexed env) {i : ℕ} {c : Ptr} (hi : v.inodes[i]? = some c) :
    (¬ v.heap.isDir c → directoryParent env i v = v) ∧
    (v.heap.isDir c → ∃ w, v.Asked env (v.heap.obj c).parentDiNumber w ∧
      directoryParent env i v = match w.lookup env (v.heap.obj c).parentDiNumber with
        | none => w
        | some p =>
            if (v.heap.obj p).kind = .file ∧
                (v.heap.obj c).parentDiNumber ∈ v.inodes.map v.heap.number then w
            else w.setParent c p) := by
  have hc : v.inodes.getD i NULL = c := by rw [List.getD_eq_getElem?_getD, hi]; rfl
  refine ⟨fun hd => ?_, fun hd => ?_⟩
  · simp only [directoryParent, hc]
    exact if_neg hd
  · obtain ⟨w, hw, hcase⟩ := ask_spec (le_refl 1) hv (v.heap.obj c).parentDiNumber
    refine ⟨w, hw, ?_⟩
    have hkind : (v.heap.obj c).kind = .dir := hd
    simp only [directoryParent, hc]
    rw [if_pos hkind]
    rcases hcase with ⟨hk, p, hne, hp, hget⟩ | ⟨hk, u, hget, hadd⟩
    · simp only [hget, hp]
      rw [if_pos hne, hw.frame.kind]
      by_cases hfile : (v.heap.obj p).kind = .file
      · rw [if_pos hfile, if_pos ⟨hfile, hk⟩]
      · rw [if_neg hfile, if_neg (fun h => hfile h.1)]
    · simp only [hget, hadd, ne_eq, not_true_eq_false, if_false]
      cases w.lookup env (v.heap.obj c).parentDiNumber with
      | none => rfl
      | some p => exact (if_neg (fun h => hk h.2)).symm

/-- An entry gives its name and its directory to what its number finds. -/
theorem nameEntry_spec (hv : v.Indexed env) (dir : Ptr) (e : InodeName) :
    ∃ w, v.Asked env e.diNumber w ∧
      nameEntry env dir v e = match w.lookup env e.diNumber with
        | none => w
        | some p => (w.setName p e.name).setParent p dir := by
  obtain ⟨w, hw, hcase⟩ := ask_spec (Nat.zero_le 1) hv e.diNumber
  refine ⟨w, hw, ?_⟩
  rw [nameEntry]
  rcases hcase with ⟨_, p, hne, hp, hget⟩ | ⟨_, u, hget, hadd⟩
  · simp only [hget, hp]
    rw [if_pos hne]
  · simp only [hget, hadd, ne_eq, not_true_eq_false, if_false]
    cases w.lookup env e.diNumber with
    | none => rfl
    | some p => rfl

end Recoverer

end Jfsrec
