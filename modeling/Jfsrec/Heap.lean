import Jfsrec.Inode
import Mathlib.Logic.Function.Basic

/-!
# Objects and their cached dinodes

The inode objects live at addresses; `Heap` holds them.  An object carries two
pieces of scratch state, the mark and the cached dinode, and the rest of it, its
`core`, is written by the constructor and by the recovery only.

`getDinode` answers from the cache and fills it, so every stage that looks at a
dinode writes to the heap.  `CacheSame` says what such writes leave alone, and
`getDinode_fst` that on a `Coherent` heap the answer is what the device holds.
-/

namespace Jfsrec

structure Heap where
  obj : Ptr → Inode
  /-- the next free address -/
  brk : ℕ

/-- What `read_dinode` leaves in a fresh `dinode`.  An object stands at an
offset that was read when it was built, so the read does not throw. -/
def Env.readDinode (env : Env) (byteOffset : ℕ) : Dinode :=
  match env.device.readBytes (toInt64 byteOffset) 512 env.fresh with
  | .ok dinode => .ofBuffer dinode 0
  | .error _ => .ofBuffer env.fresh 0

theorem Env.readDinode_of_slot {env : Env} {off : ℕ} (h : env.device.Slot off) :
    env.readDinode off = env.device.dinodeAt off := by
  obtain ⟨b, hb, hd⟩ := h.readBytes env.fresh
  rw [readDinode, hb]
  exact hd

/-- An object without its scratch state. -/
def Inode.core (ino : Inode) : Inode := { ino with isMarked := false, dinode := none }

namespace Heap

def set (h : Heap) (p : Ptr) (ino : Inode) : Heap :=
  { h with obj := Function.update h.obj p ino }

def alloc (h : Heap) (ino : Inode) : Heap :=
  { obj := Function.update h.obj h.brk ino, brk := h.brk + 1 }

def mark (h : Heap) (p : Ptr) : Heap := h.set p { h.obj p with isMarked := true }

def unmark (h : Heap) (p : Ptr) : Heap := h.set p { h.obj p with isMarked := false }

def freeDinode (h : Heap) (p : Ptr) : Heap := h.set p { h.obj p with dinode := none }

def getDinode (env : Env) (h : Heap) (p : Ptr) : Dinode × Heap :=
  match (h.obj p).dinode with
  | some d => (d, h)
  | none =>
      let d := env.readDinode (h.obj p).byteOffset
      (d, h.set p { h.obj p with dinode := some d })

def Live (h : Heap) (p : Ptr) : Prop := p ≠ NULL ∧ p < h.brk

def core (h : Heap) (p : Ptr) : Inode := (h.obj p).core

def marked (h : Heap) (p : Ptr) : Bool := (h.obj p).isMarked

def dinodeOf (env : Env) (h : Heap) (p : Ptr) : Dinode := env.readDinode (h.obj p).byteOffset

/-- A cached dinode is the one the device holds. -/
def Coherent (env : Env) (h : Heap) : Prop :=
  ∀ p d, (h.obj p).dinode = some d → d = h.dinodeOf env p

structure Same (env : Env) (h h' : Heap) : Prop where
  core : h'.core = h.core
  brk : h'.brk = h.brk
  coherent : h.Coherent env → h'.Coherent env

structure CacheSame (env : Env) (h h' : Heap) : Prop extends Same env h h' where
  marked : h'.marked = h.marked

variable {env : Env} {h h' h'' : Heap} {p q : Ptr}

theorem set_obj (ino : Inode) : (h.set p ino).obj q = if q = p then ino else h.obj q :=
  Function.update_apply _ _ _ _

theorem alloc_obj (ino : Inode) : (h.alloc ino).obj q = if q = h.brk then ino else h.obj q :=
  Function.update_apply _ _ _ _

@[simp] theorem alloc_obj_self (ino : Inode) : (h.alloc ino).obj h.brk = ino :=
  Function.update_self _ _ _

theorem alloc_obj_of_lt {ino : Inode} (hp : p < h.brk) : (h.alloc ino).obj p = h.obj p :=
  Function.update_of_ne (Nat.ne_of_lt hp) _ _

namespace Same

theorem refl : Same env h h := ⟨rfl, rfl, id⟩

theorem trans (a : Same env h h') (b : Same env h' h'') : Same env h h'' :=
  ⟨b.core.trans a.core, b.brk.trans a.brk, fun hc => b.coherent (a.coherent hc)⟩

variable (a : Same env h h') (p : Ptr)
include a

theorem kind : (h'.obj p).kind = (h.obj p).kind := by
  show (h'.core p).kind = (h.core p).kind
  rw [a.core]

theorem byteOffset : (h'.obj p).byteOffset = (h.obj p).byteOffset := by
  show (h'.core p).byteOffset = (h.core p).byteOffset
  rw [a.core]

theorem diNumber : (h'.obj p).diNumber = (h.obj p).diNumber := by
  show (h'.core p).diNumber = (h.core p).diNumber
  rw [a.core]

theorem parentDiNumber : (h'.obj p).parentDiNumber = (h.obj p).parentDiNumber := by
  show (h'.core p).parentDiNumber = (h.core p).parentDiNumber
  rw [a.core]

theorem parent : (h'.obj p).parent = (h.obj p).parent := by
  show (h'.core p).parent = (h.core p).parent
  rw [a.core]

theorem dinodeOf : h'.dinodeOf env p = h.dinodeOf env p := by
  rw [Heap.dinodeOf, Heap.dinodeOf, a.byteOffset]

end Same

theorem CacheSame.refl : CacheSame env h h := ⟨.refl, rfl⟩

theorem CacheSame.trans (a : CacheSame env h h') (b : CacheSame env h' h'') :
    CacheSame env h h'' := ⟨a.toSame.trans b.toSame, b.marked.trans a.marked⟩

/-- Overwriting an object by one with the same core, whose cache is empty or
right, changes scratch state only. -/
theorem same_set {ino : Inode} (hcore : ino.core = (h.obj p).core)
    (hd : ∀ d, ino.dinode = some d → (h.obj p).dinode = some d ∨ d = h.dinodeOf env p) :
    Same env h (h.set p ino) := by
  have hc : (h.set p ino).core = h.core := by
    funext q
    rw [core, set_obj]
    by_cases hq : q = p
    · rw [if_pos hq, hcore, hq]; rfl
    · rw [if_neg hq]; rfl
  refine ⟨hc, rfl, fun hcoh q d hq => ?_⟩
  have hoff : ((h.set p ino).obj q).byteOffset = (h.obj q).byteOffset := by
    show ((h.set p ino).core q).byteOffset = (h.core q).byteOffset
    rw [hc]
  rw [dinodeOf, hoff]
  rw [set_obj] at hq
  by_cases hqp : q = p
  · rw [if_pos hqp] at hq
    subst hqp
    rcases hd d hq with h1 | h1
    · exact hcoh q d h1
    · exact h1
  · rw [if_neg hqp] at hq
    exact hcoh q d hq

theorem same_mark : Same env h (h.mark p) := same_set rfl (fun _ hd => Or.inl hd)

theorem same_unmark : Same env h (h.unmark p) := same_set rfl (fun _ hd => Or.inl hd)

theorem marked_mark : (h.mark p).marked = Function.update h.marked p true := by
  funext q
  rw [marked, mark, set_obj, Function.update_apply]
  split <;> rfl

theorem marked_unmark : (h.unmark p).marked = Function.update h.marked p false := by
  funext q
  rw [marked, unmark, set_obj, Function.update_apply]
  split <;> rfl

theorem marked_freeDinode : (h.freeDinode p).marked = h.marked := by
  funext q
  rw [marked, freeDinode, set_obj]
  split
  · rename_i hq; rw [hq]; rfl
  · rfl

theorem cacheSame_freeDinode : CacheSame env h (h.freeDinode p) :=
  ⟨same_set rfl (fun d hd => by cases hd), marked_freeDinode⟩

theorem cacheSame_getDinode : CacheSame env h (h.getDinode env p).2 := by
  unfold getDinode
  split
  · exact .refl
  · refine ⟨same_set rfl (fun d hd => Or.inr (Option.some.inj hd).symm), ?_⟩
    funext q
    rw [marked, set_obj]
    split
    · rename_i hq; rw [hq]; rfl
    · rfl

theorem getDinode_fst (hc : h.Coherent env) : (h.getDinode env p).1 = h.dinodeOf env p := by
  unfold getDinode
  split
  · rename_i d hd; exact hc p d hd
  · rfl

theorem getDinode_eq (hc : h.Coherent env) (p : Ptr) :
    ∃ h', h.getDinode env p = (h.dinodeOf env p, h') ∧ CacheSame env h h' :=
  ⟨_, Prod.ext (getDinode_fst hc) rfl, cacheSame_getDinode⟩

theorem Coherent.alloc (hc : h.Coherent env) {ino : Inode} (hi : ino.dinode = none) :
    (h.alloc ino).Coherent env := by
  intro q d hq
  by_cases hqp : q = h.brk
  · subst hqp
    rw [alloc_obj_self, hi] at hq
    cases hq
  · have he : (h.alloc ino).obj q = h.obj q := Function.update_of_ne hqp _ _
    rw [he] at hq
    rw [dinodeOf, he]
    exact hc q d hq

end Heap

end Jfsrec
