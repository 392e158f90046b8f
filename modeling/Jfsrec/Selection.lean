import Jfsrec.Lib.Loop
import Jfsrec.Lib.Select
import Jfsrec.InodeVector
import Mathlib.Data.Nat.SuccPred

/-!
# What postprocessing selects

The stages after the scan only take inodes out.  Which ones depends on what the
inodes are, not on where their objects live, what is marked or what is cached: a
`View` is an inode as the device and the constructor know it, and `keepInostamp`,
`keepExtent`, `keepAllocated` and `keepNewest` decide from a list of views which
positions stay.

`Selects` says that a stage of the program moves a vector as such a decision
does; what all stages have in common follows from it alone.
-/

namespace Jfsrec

open Lib

/-- An inode without its address and its scratch state, and the 512 bytes the
device holds at its offset. -/
structure View where
  kind : Kind
  byteOffset : ℕ
  diNumber : ℕ
  parentDiNumber : ℕ
  dinode : Dinode

def View.otime (x : View) : ℕ ×ₗ ℕ := x.dinode.diOtime.key

def Heap.view (env : Env) (h : Heap) (p : Ptr) : View where
  kind := (h.obj p).kind
  byteOffset := (h.obj p).byteOffset
  diNumber := (h.obj p).diNumber
  parentDiNumber := (h.obj p).parentDiNumber
  dinode := h.dinodeOf env p

theorem Heap.Same.view {env : Env} {h h' : Heap} (a : Same env h h') :
    h'.view env = h.view env := by
  funext p
  simp only [Heap.view, a.kind, a.byteOffset, a.diNumber, a.parentDiNumber, a.dinodeOf]

/-! ### The selections -/

def countInostamps (stamps : List ℕ) : Std.TreeMap ℕ ℕ :=
  stamps.foldl (fun m s => m.insert s (m.getD s 0 + 1)) ∅

/-- `ismn`, `issmn` and `(*ismi).first` after the loop over the map.  A count
becomes the second largest only when a larger one follows it. -/
def rankInostamps (inostamps : Std.TreeMap ℕ ℕ) : ℕ × ℕ × Option ℕ :=
  inostamps.toList.foldl (fun s iter => if iter.2 > s.1 then (iter.2, s.1, some iter.1) else s)
    (0, 0, inostamps.toList.head?.map Prod.fst)

/-- One inostamp is so common that only its inodes are kept. -/
def dominantInostamp (inostamps : Std.TreeMap ℕ ℕ) : Option ℕ :=
  let (ismn, issmn, ismi) := rankInostamps inostamps
  if ismn / 100 > issmn then ismi else none

def keepInostamp (l : List View) (i : ℕ) : Bool :=
  match dominantInostamp (countInostamps (l.map (fun x => x.dinode.diInostamp))) with
  | none => true
  | some stamp => l[i]?.all (fun x => x.dinode.diInostamp == stamp)

def continues (l : List View) (j : ℕ) : Bool :=
  match l[j]?, l[j + 1]? with
  | some x, some y =>
      y.dinode.diNumber == x.dinode.diNumber + 1 && y.byteOffset == x.byteOffset + 512
  | _, _ => false

/-- The backward walk goes on from `j`, which it never does to position 0. -/
def continuesBack (l : List View) (j : ℕ) : Bool := decide (0 < j - 1) && continues l (j - 1)

/-- The inodes counted forward from `i`, up to 32, and then backward. -/
def extentCount (l : List View) (i : ℕ) : ℕ :=
  countWhile 32 (continuesBack l) Nat.pred 32 i (countWhile 32 (continues l) Nat.succ 32 i 0)

def keepExtent (l : List View) (i : ℕ) : Bool := decide (32 ≤ extentCount l i)

def keepAllocated (l : List View) (i : ℕ) : Bool := l[i]?.all (fun x => x.dinode.diNlink != 0)

/-- Earlier inodes of the same number are older, later ones are not newer. -/
def keepNewest (l : List View) (i : ℕ) : Bool :=
  l[i]?.all (fun x =>
    (l.take i).all (fun y => decide (y.diNumber = x.diNumber → y.otime < x.otime)) &&
    (l.drop (i + 1)).all (fun y => decide (y.diNumber = x.diNumber → y.otime ≤ x.otime)))

/-- **An extent is kept wherever it lies.**  The 32 inodes may start at position
0, where the backward count stops one early. -/
theorem keepExtent_of_continues {l : List View} {a : ℕ} (h : ∀ k < 31, continues l (a + k) = true)
    {k : ℕ} (hk : k < 32) : keepExtent l (a + k) = true := by
  have hup : ∀ m < 31 - k, continues l (Nat.succ^[m] (a + k)) = true := by
    intro m hm
    rw [Nat.succ_iterate, Nat.add_assoc]
    exact h (k + m) (by omega)
  have hdown : ∀ m < k - 1, continuesBack l (Nat.pred^[m] (a + k)) = true := by
    intro m hm
    rw [Nat.pred_iterate, continuesBack, Bool.and_eq_true, decide_eq_true_eq,
      show a + k - m - 1 = a + (k - m - 1) by omega]
    exact ⟨by omega, h (k - m - 1) (by omega)⟩
  have hforward : min 32 (0 + 1 + (31 - k)) ≤ countWhile 32 (continues l) Nat.succ 32 (a + k) 0 :=
    countWhile_ge (by omega) hup
  have hbackward : min 32 (countWhile 32 (continues l) Nat.succ 32 (a + k) 0 + 1 + (k - 1))
      ≤ extentCount l (a + k) := countWhile_ge (by omega) hdown
  rw [keepExtent, decide_eq_true_eq]
  -- the inode itself is counted twice, which makes up for the position that is missed
  omega

/-! ### Stages as selections -/

namespace InodeVector

variable {env : Env} {sel : List View → ℕ → Bool} {v w : InodeVector}

def views (env : Env) (v : InodeVector) : List View := v.inodes.map (v.heap.view env)

def invalidatedViews (env : Env) (v : InodeVector) : List View :=
  v.invalidatedInodes.map (v.heap.view env)

/-- What a stage needs of the vector it starts from. -/
structure Ready (env : Env) (v : InodeVector) : Prop where
  coherent : v.heap.Coherent env
  notNull : ∀ p ∈ v.inodes, p ≠ NULL
  nodup : v.inodes.Nodup

/-- From `v` to `w` the inodes at the positions `sel` accepts stay, and the others
are appended to the invalidated ones. -/
structure Selects (env : Env) (sel : List View → ℕ → Bool) (v w : InodeVector) : Prop where
  same : Heap.Same env v.heap w.heap
  inodes : w.inodes = keepAt (sel (v.views env)) v.inodes
  invalidatedInodes : w.invalidatedInodes
    = v.invalidatedInodes ++ keepAt (fun i => !sel (v.views env) i) v.inodes

theorem views_getElem? {i : ℕ} (hi : i < v.inodes.length) :
    (v.views env)[i]? = some (v.heap.view env v.inodes[i]) := by
  rw [views, List.getElem?_map, List.getElem?_eq_getElem hi, Option.map_some]

namespace Selects

variable (hs : Selects env sel v w)
include hs

theorem sublist : w.inodes.Sublist v.inodes := by
  rw [hs.inodes]
  exact keepAt_sublist _ _

theorem ready (hv : v.Ready env) : w.Ready env where
  coherent := hs.same.coherent hv.coherent
  notNull p hp := hv.notNull p (hs.sublist.subset hp)
  nodup := hs.sublist.nodup hv.nodup

theorem views_eq : w.views env = keepAt (sel (v.views env)) (v.views env) := by
  rw [views, hs.same.view, hs.inodes, ← keepAt_map]
  rfl

theorem invalidatedViews_eq : w.invalidatedViews env
    = v.invalidatedViews env ++ keepAt (fun i => !sel (v.views env) i) (v.views env) := by
  rw [invalidatedViews, hs.same.view, hs.invalidatedInodes, List.map_append, ← keepAt_map]
  rfl

theorem perm : (w.inodes ++ w.invalidatedInodes).Perm (v.inodes ++ v.invalidatedInodes) := by
  rw [hs.inodes, hs.invalidatedInodes]
  refine (List.perm_append_comm_assoc _ _ _).trans ?_
  refine (List.Perm.append_left _ (keepAt_perm _ _)).trans List.perm_append_comm

end Selects

theorem selects_removeWhere {h : Heap} (out : Inode → Bool) (hs : Heap.Same env v.heap h)
    (hn : ∀ p ∈ v.inodes, p ≠ NULL)
    (hout : ∀ i (hi : i < v.inodes.length), out (h.obj v.inodes[i]) = !sel (v.views env) i) :
    Selects env sel v ({ v with heap := h }.removeWhere out) where
  same := hs
  inodes := by
    refine (removeWhere_inodes (v := { v with heap := h }) hn).trans ?_
    refine filter_eq_keepAt (fun i hi => ?_)
    rw [hout i hi, Bool.not_not]
  invalidatedInodes := by
    refine (removeWhere_inv (v := { v with heap := h }) out).trans ?_
    exact congrArg (v.invalidatedInodes ++ ·) (filter_eq_keepAt hout)

end InodeVector

end Jfsrec
