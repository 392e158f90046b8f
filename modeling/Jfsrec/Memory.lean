import Jfsrec.Heap

/-!
# Memory

The program lays structures over what it has read and follows indices from the
disk into them, also where they point outside.  A `Memory` is a structure
between what lies before and behind it, and fields are read from it low byte
first, with the sign that their C types have.
-/

namespace Jfsrec

/-- Bytes by their position relative to a structure, on both sides of it. -/
abbrev Memory := ℤ → UInt8

/-- A structure of `size` bytes, between what memory holds around it. -/
def Env.memory (env : Env) (size : ℕ) (b : Buffer) : Memory := fun z =>
  if 0 ≤ z ∧ z < size then b z.toNat else env.fresh (z % 2 ^ 64).toNat

theorem Env.memory_of_lt {env : Env} {size : ℕ} {b : Buffer} {z : ℤ} (h0 : 0 ≤ z) (h : z < size) :
    env.memory size b z = b z.toNat := if_pos ⟨h0, h⟩

def int8 (b : UInt8) : ℤ := if b.toNat < 128 then (b.toNat : ℤ) else (b.toNat : ℤ) - 256

theorem int8_lt (b : UInt8) : int8 b < 128 := by
  have h : b.toNat < 256 := b.toNat_lt
  unfold int8
  split <;> omega

def int16 (n : ℕ) : ℤ := if n < 2 ^ 15 then (n : ℤ) else (n : ℤ) - 2 ^ 16

def leAt (m : Memory) (p : ℤ) (n : ℕ) : ℕ := leBytes (fun k => m (p + k)) 0 n

theorem leBytes_congr {b b' : Buffer} {off n : ℕ} (h : ∀ k < n, b (off + k) = b' (off + k)) :
    leBytes b off n = leBytes b' off n := by
  induction n generalizing off with
  | zero => rfl
  | succ n ih =>
    have h0 : b off = b' off := h 0 (Nat.succ_pos n)
    rw [leBytes, leBytes, h0, ih (fun k hk => ?_)]
    have hk' := h (k + 1) (by omega)
    rwa [Nat.add_assoc, Nat.add_comm 1 k]

def AgreeOn (size : ℕ) (m m' : Memory) : Prop := ∀ z : ℤ, 0 ≤ z → z < size → m z = m' z

theorem AgreeOn.leAt {size n : ℕ} {m m' : Memory} (h : AgreeOn size m m') {p : ℤ} (h0 : 0 ≤ p)
    (hp : p + n ≤ size) : leAt m p n = leAt m' p n := by
  refine leBytes_congr (fun k hk => h _ ?_ ?_)
  · omega
  · omega

theorem leBytes_lt (b : Buffer) (off n : ℕ) : leBytes b off n < 256 ^ n := by
  induction n generalizing off with
  | zero => exact Nat.one_pos
  | succ n ih =>
    have h0 : (b off).toNat < 256 := (b off).toNat_lt
    have h1 := ih (off + 1)
    rw [leBytes, Nat.pow_succ]
    omega

/-- A read leaves what lies behind the bytes it asks for. -/
theorem Device.readBytes_frame {dev : Device} {off : ℤ} {n k : ℕ} {buf buf' : Buffer}
    (h : dev.readBytes off n buf = .ok buf') (hk : n ≤ k) : buf' k = buf k := by
  unfold Device.readBytes at h
  split at h
  · cases h
  · split at h
    · cases h
    · split at h
      · cases h
      · obtain rfl := Except.ok.inj h
        exact if_neg (fun hlt => absurd hlt.1 (Nat.not_lt.mpr hk))

/-! `flag` of `btpage` -/

def BT_LEAF : ℕ := 0x02

def isLeaf (flag : UInt8) : Prop := flag.toNat &&& BT_LEAF ≠ 0

instance (flag : UInt8) : Decidable (isLeaf flag) := inferInstanceAs (Decidable (_ ≠ _))

end Jfsrec
