import Mathlib.Algebra.Ring.Nat
import Mathlib.Data.List.Induction
import Mathlib.Data.Nat.Notation

/-!
# Files with gaps

A file is a size and bytes.  A write behind the end leaves a gap that reads as zeros, and so
does a truncation to more than the size.  `run` carries out one operation after another;
what it leaves at a position is the byte of the last operation that touches the position,
`byte_run`, and the size does not depend on the bytes, `size_run`.
-/

namespace Lib

structure SparseFile where
  size : ℕ
  byte : ℕ → UInt8
  byte_of_le : ∀ k, size ≤ k → byte k = 0

structure Patch where
  pos : ℕ
  data : List UInt8
deriving DecidableEq, Repr

inductive FileOp
  | write (w : Patch)
  | truncate (size : ℕ)
deriving DecidableEq, Repr

/-! ### Patches -/

namespace Patch

def byteAt (w : Patch) (k : ℕ) : Option UInt8 := if w.pos ≤ k then w.data[k - w.pos]? else none

def take (w : Patch) (n : ℕ) : Patch := ⟨w.pos, w.data.take n⟩

def drop (w : Patch) (n : ℕ) : Patch := ⟨w.pos + n, w.data.drop n⟩

def stop (w : Patch) : ℕ := w.pos + w.data.length

variable {w : Patch} {k n : ℕ}

theorem byteAt_eq_some {b : UInt8} :
    w.byteAt k = some b ↔ ∃ i, k = w.pos + i ∧ w.data[i]? = some b := by
  unfold byteAt
  split
  · rename_i h
    refine ⟨?_, ?_⟩
    · intro hb
      exact ⟨k - w.pos, by omega, hb⟩
    · rintro ⟨i, rfl, hb⟩
      rwa [Nat.add_sub_cancel_left]
  · rename_i h
    refine ⟨?_, ?_⟩
    · intro hb
      cases hb
    · rintro ⟨i, rfl, _⟩
      exact absurd (Nat.le_add_right _ _) h

theorem byteAt_eq_none (h : w.pos + w.data.length ≤ k) : w.byteAt k = none := by
  rw [byteAt, if_pos (by omega)]
  exact List.getElem?_eq_none (by omega)

theorem byteAt_of_take {b : UInt8} (h : (w.take n).byteAt k = some b) : w.byteAt k = some b := by
  obtain ⟨i, hk, hi⟩ := byteAt_eq_some.mp h
  refine byteAt_eq_some.mpr ⟨i, hk, ?_⟩
  rw [take, List.getElem?_take] at hi
  split at hi
  · exact hi
  · cases hi

theorem byteAt_of_drop {b : UInt8} (h : (w.drop n).byteAt k = some b) : w.byteAt k = some b := by
  obtain ⟨i, hk, hi⟩ := byteAt_eq_some.mp h
  refine byteAt_eq_some.mpr ⟨n + i, by rw [hk, drop, Nat.add_assoc], ?_⟩
  rwa [drop, List.getElem?_drop] at hi

theorem byteAt_take_or_drop : ((w.drop n).byteAt k).or ((w.take n).byteAt k) = w.byteAt k := by
  unfold byteAt take drop
  dsimp only
  by_cases hk : w.pos ≤ k
  · by_cases hn : w.pos + n ≤ k
    · have htake : (w.data.take n)[k - w.pos]? = none := List.getElem?_take_eq_none (by omega)
      rw [if_pos hn, if_pos hk, if_pos hk, List.getElem?_drop, htake, Option.or_none]
      congr 1
      omega
    · rw [if_neg hn, if_pos hk, if_pos hk, List.getElem?_take_of_lt (by omega), Option.none_or]
  · rw [if_neg (by omega), if_neg hk, if_neg hk]
    rfl

/-- The writes put the bytes from `a` up to `b`, one after another. -/
def Consecutive : List Patch → ℕ → ℕ → Prop
  | [], a, b => a = b
  | w :: ws, a, b => w.pos = a ∧ Consecutive ws (a + w.data.length) b

theorem Consecutive.sum_length {ws : List Patch} {a b : ℕ} (h : Consecutive ws a b) :
    a + (ws.map (fun w => w.data.length)).sum = b := by
  induction ws generalizing a with
  | nil => exact h
  | cons w ws ih =>
    rw [List.map_cons, List.sum_cons, ← Nat.add_assoc]
    exact ih h.2

/-- The last of consecutive writes ends where they end. -/
theorem Consecutive.getLast {ws : List Patch} {a b : ℕ} (h : Consecutive ws a b) (hne : ws ≠ []) :
    ws.getLast?.map stop = some b := by
  induction ws generalizing a with
  | nil => exact absurd rfl hne
  | cons w ws ih =>
    obtain ⟨hpos, hrest⟩ := h
    cases ws with
    | nil =>
      have hend : a + w.data.length = b := hrest
      show some (w.pos + w.data.length) = some b
      rw [hpos, hend]
    | cons w' ws =>
      rw [List.getLast?_cons_cons]
      exact ih hrest (List.cons_ne_nil _ _)

end Patch

/-! ### Operations -/

namespace SparseFile

@[ext] theorem ext {f g : SparseFile} (hsize : f.size = g.size) (hbyte : ∀ k, f.byte k = g.byte k) :
    f = g := by
  cases f
  cases g
  obtain rfl := hsize
  obtain rfl := funext hbyte
  rfl

def empty : SparseFile := ⟨0, fun _ => 0, fun _ _ => rfl⟩

def sizeAfter (size : ℕ) : FileOp → ℕ
  | .write w => if w.data = [] then size else max size (w.pos + w.data.length)
  | .truncate n => n

theorem le_sizeAfter_write (size : ℕ) (w : Patch) : size ≤ sizeAfter size (.write w) := by
  rw [sizeAfter]
  split
  · exact Nat.le_refl _
  · exact Nat.le_max_left _ _

/-- The byte that an operation leaves at a position, if it touches the position. -/
def left (k : ℕ) : FileOp → Option UInt8
  | .write w => w.byteAt k
  | .truncate n => if n ≤ k then some 0 else none

theorem left_of_le {size k : ℕ} {op : FileOp} (h : sizeAfter size op ≤ k) :
    left k op = some 0 ∨ left k op = none ∧ size ≤ k := by
  cases op with
  | write w =>
    rw [sizeAfter] at h
    by_cases hnil : w.data = []
    · rw [if_pos hnil] at h
      refine Or.inr ⟨?_, h⟩
      rw [left, Patch.byteAt, hnil, List.getElem?_nil, ite_self]
    · rw [if_neg hnil, Nat.max_le] at h
      exact Or.inr ⟨Patch.byteAt_eq_none h.2, h.1⟩
  | truncate n => exact Or.inl (if_pos h)

def apply (f : SparseFile) (op : FileOp) : SparseFile where
  size := sizeAfter f.size op
  byte := fun k => (left k op).getD (f.byte k)
  byte_of_le := by
    intro k hk
    rcases left_of_le hk with h | ⟨h, hsize⟩
    · rw [h, Option.getD_some]
    · rw [h, Option.getD_none]
      exact f.byte_of_le k hsize

def run (f : SparseFile) (ops : List FileOp) : SparseFile := ops.foldl apply f

/-- The byte that the last of the operations that touch a position leaves there. -/
def lastByte (ops : List FileOp) (k : ℕ) : Option UInt8 :=
  ops.foldl (fun r op => (left k op).or r) none

variable {f : SparseFile} {ops : List FileOp} {k : ℕ}

theorem run_append (f : SparseFile) (ops ops' : List FileOp) :
    f.run (ops ++ ops') = (f.run ops).run ops' := List.foldl_append

theorem size_run (f : SparseFile) (ops : List FileOp) :
    (f.run ops).size = ops.foldl sizeAfter f.size := by
  induction ops generalizing f with
  | nil => rfl
  | cons op ops ih => exact ih (f.apply op)

theorem lastByte_concat (ops : List FileOp) (op : FileOp) (k : ℕ) :
    lastByte (ops ++ [op]) k = (left k op).or (lastByte ops k) := by
  rw [lastByte, List.foldl_append]
  rfl

theorem byte_run (f : SparseFile) (ops : List FileOp) (k : ℕ) :
    (f.run ops).byte k = (lastByte ops k).getD (f.byte k) := by
  induction ops using List.reverseRecOn with
  | nil => rfl
  | append_singleton ops op ih =>
    rw [run_append, lastByte_concat, Option.getD_or, ← ih]
    rfl

/-- Operations that agree on a position leave what one of them leaves there. -/
theorem lastByte_of_agree {v : UInt8} (hagree : ∀ op ∈ ops, ∀ b, left k op = some b → b = v)
    (hsome : ∃ op ∈ ops, left k op = some v) : lastByte ops k = some v := by
  induction ops using List.reverseRecOn with
  | nil =>
    obtain ⟨op, hop, _⟩ := hsome
    cases hop
  | append_singleton ops op ih =>
    rw [lastByte_concat]
    cases hb : left k op with
    | some b =>
      obtain rfl := hagree op (by simp) b hb
      rfl
    | none =>
      rw [Option.none_or]
      apply ih
      · intro op' hop'
        exact hagree op' (List.mem_append_left _ hop')
      · obtain ⟨op', hop', hv⟩ := hsome
        rcases List.mem_append.mp hop' with h | h
        · exact ⟨op', h, hv⟩
        · obtain rfl := List.mem_singleton.mp h
          rw [hb] at hv
          cases hv

theorem lastByte_eq_none (h : ∀ op ∈ ops, left k op = none) : lastByte ops k = none := by
  induction ops using List.reverseRecOn with
  | nil => rfl
  | append_singleton ops op ih =>
    rw [lastByte_concat, h op (by simp), Option.none_or]
    exact ih (fun op' hop' => h op' (List.mem_append_left _ hop'))

/-! ### Runs cut short -/

/-- What is done of an operation after `n` bytes of it; a truncation is not done in parts. -/
def started (n : ℕ) : FileOp → List FileOp
  | .write w => [.write (w.take n)]
  | .truncate _ => []

/-- What is done of a run that is cut short in its operation `i`, of which it has written `n`
bytes. -/
def done : List FileOp → ℕ → ℕ → List FileOp
  | [], _, _ => []
  | op :: _, 0, n => started n op
  | op :: ops, i + 1, n => op :: done ops i n

end SparseFile

end Lib
