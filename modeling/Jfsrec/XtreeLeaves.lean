import Jfsrec.Xtree

/-!
# The leaves of an extent tree

What `get_leaf_xads` and `get_internal_xads` collect, where the device holds a tree: the
entries of its leaves from left to right, `collectXads_of_stores`.  A tree is as deep as it
likes, and nodes may be without entries.
-/

namespace Jfsrec

open Lib

namespace FileInode

/-! ### Trees -/

/-- An extent tree: a leaf with its extents, or a node with a tree below each of its
entries. -/
inductive XtTree
  | leaf (xads : List Xad)
  | internal (xads : List Xad) (kids : List XtTree)

mutual

def XtTree.leafXads : XtTree → List Xad
  | .leaf xads => xads
  | .internal _ kids => forestXads kids

def forestXads : List XtTree → List Xad
  | [] => []
  | t :: ts => t.leafXads ++ forestXads ts

end

def xtpageAt (dev : Device) (address : ℕ) : Buffer := fun k =>
  dev.data (address * dev.blocksize.bytes + k)

def PageInside (dev : Device) (address : ℕ) : Prop :=
  address * dev.blocksize.bytes + xtpageBytes ≤ dev.fssize

/-- The fields of a node with the entries `xads`, in an array with room for `slots`. -/
structure NodeHolds (b : Buffer) (pos slots : ℕ) (leaf : Prop) (xads : List Xad) : Prop where
  two_le : 2 ≤ Xtpage.nextindex b pos
  le_slots : Xtpage.nextindex b pos ≤ slots
  flag : isLeaf (Xtpage.flag b pos) ↔ leaf
  xads : Xtpage.xads b pos = xads

mutual

def Stores (dev : Device) (b : Buffer) (pos slots : ℕ) : XtTree → Prop
  | .leaf xads => NodeHolds b pos slots True xads
  | .internal xads kids => NodeHolds b pos slots False xads ∧ StoresAll dev xads kids

/-- The entries lead to the roots of the trees, one each. -/
def StoresAll (dev : Device) : List Xad → List XtTree → Prop
  | [], [] => True
  | x :: xs, t :: ts => PageInside dev x.address ∧ Stores dev (xtpageAt dev x.address) 0 256 t ∧
      StoresAll dev xs ts
  | [], _ :: _ => False
  | _ :: _, [] => False

end

/-! ### Nodes in memory -/

variable {env : Env} {d : Dinode} {b b' : Buffer} {pos slots : ℕ} {leaf : Prop}
  {xads : List Xad} {t : XtTree} {ts : List XtTree} {x : Xad}

theorem xadAt_congr {p : ℕ} (h : ∀ k < 16, b (p + k) = b' (p + k)) : xadAt b p = xadAt b' p := by
  have hle : ∀ q n, q + n ≤ 16 → leBytes b (p + q) n = leBytes b' (p + q) n := by
    intro q n hq
    refine leBytes_congr (fun k hk => ?_)
    rw [Nat.add_assoc]
    exact h (q + k) (by omega)
  simp only [xadAt, h 3 (by omega), h 11 (by omega), hle 4 4 (by omega), hle 8 3 (by omega),
    hle 12 4 (by omega)]

theorem NodeHolds.congr (h : NodeHolds b pos slots leaf xads) (hslots : 2 ≤ slots)
    (hb : ∀ k < 16 * slots, b (pos + k) = b' (pos + k)) :
    NodeHolds b' pos slots leaf xads := by
  have hindex : Xtpage.nextindex b' pos = Xtpage.nextindex b pos := by
    rw [Xtpage.nextindex, Xtpage.nextindex]
    refine congrArg int16 (leBytes_congr (fun k hk => ?_)).symm
    rw [Nat.add_assoc]
    exact hb (18 + k) (by omega)
  have hflag : Xtpage.flag b' pos = Xtpage.flag b pos := (hb 16 (by omega)).symm
  refine ⟨by rw [hindex]; exact h.two_le, by rw [hindex]; exact h.le_slots,
    by rw [hflag]; exact h.flag, ?_⟩
  rw [← h.xads, Xtpage.xads, Xtpage.xads, hindex]
  refine List.map_congr_left (fun i hi => ?_)
  have hi' := List.mem_range.mp hi
  have hle := h.le_slots
  refine (xadAt_congr (fun k hk => ?_)).symm
  rw [Nat.add_assoc]
  exact hb (16 * (i + 2) + k) (by omega)

theorem Stores.congr {dev : Device} (h : Stores dev b pos slots t) (hslots : 2 ≤ slots)
    (hb : ∀ k < 16 * slots, b (pos + k) = b' (pos + k)) : Stores dev b' pos slots t := by
  cases t with
  | leaf xads => exact NodeHolds.congr h hslots hb
  | internal xads kids => exact ⟨h.1.congr hslots hb, h.2⟩

theorem readBytes_xtpage (env : Env) {address : ℕ} (h : PageInside env.device address) :
    ∃ b, env.readBytes (address * env.device.blocksize.bytes) xtpageBytes env.fresh = .ret b ∧
      ∀ k < xtpageBytes, xtpageAt env.device address k = b k := by
  unfold PageInside at h
  have hle := env.device.getSizeBytes_le
  have hread : env.device.readBytes ((address * env.device.blocksize.bytes : ℕ) : ℤ) xtpageBytes
      env.fresh = .ok (env.device.fread (address * env.device.blocksize.bytes) xtpageBytes
        env.fresh) :=
    Device.readBytes_within (Nat.le_trans (Nat.le_add_right _ _) h) (by decide)
  rw [Env.readBytes, ← Int.natCast_mul, hread]
  refine ⟨_, rfl, fun k hk => ?_⟩
  exact (Device.fread_of_lt hk (by unfold Device.fssize at h; omega)).symm

/-! ### The collection -/

/-- `get_internal_xtpage` appends the leaves of the tree at an entry. -/
def Appends (env : Env) (x : Xad) (t : XtTree) (fuel : ℕ) : Prop :=
  ∀ n, fuel ≤ n → ∀ v, getInternalXtpage env n x v = some (.ret (v ++ t.leafXads))

mutual

theorem exists_appends (x : Xad) : ∀ t : XtTree, PageInside env.device x.address →
    Stores env.device (xtpageAt env.device x.address) 0 256 t → ∃ fuel, Appends env x t fuel
  | .leaf xads, hin, h => by
    obtain ⟨b, hread, hb⟩ := readBytes_xtpage env hin
    have hnode : NodeHolds b 0 256 True xads := NodeHolds.congr h (by decide) (fun k hk => by
      rw [Nat.zero_add]
      exact hb k hk)
    refine ⟨1, fun n hn v => ?_⟩
    obtain ⟨n, rfl⟩ : ∃ k, n = k + 1 := ⟨n - 1, by omega⟩
    rw [getInternalXtpage, hread]
    dsimp only
    by_cases hidx : Xtpage.nextindex b 0 ≤ 2
    · have hnil : xads = [] := by rw [← hnode.xads, xads_eq_nil hidx]
      rw [if_pos hidx, hnil, XtTree.leafXads, List.append_nil]
      rfl
    · rw [if_neg hidx, if_pos (hnode.flag.mpr trivial), getLeafXads, hnode.xads]
      rfl
  | .internal xads kids, hin, h => by
    obtain ⟨b, hread, hb⟩ := readBytes_xtpage env hin
    have hnode : NodeHolds b 0 256 False xads := h.1.congr (by decide) (fun k hk => by
      rw [Nat.zero_add]
      exact hb k hk)
    obtain ⟨fuel, hfuel⟩ := exists_appends_all xads kids h.2
    refine ⟨fuel + 1, fun n hn v => ?_⟩
    obtain ⟨n, rfl⟩ : ∃ k, n = k + 1 := ⟨n - 1, by omega⟩
    have hall := hfuel n (by omega) v
    rw [getInternalXtpage, hread]
    dsimp only
    by_cases hidx : Xtpage.nextindex b 0 ≤ 2
    · have hnil : xads = [] := by rw [← hnode.xads, xads_eq_nil hidx]
      rw [hnil] at hall
      obtain hv := Outcome.ret.inj (Option.some.inj hall)
      rw [if_pos hidx, XtTree.leafXads, ← hv]
      rfl
    · rw [if_neg hidx, if_neg (fun hl => hnode.flag.mp hl), getInternalXads, hnode.xads, hall]
      rfl

theorem exists_appends_all : ∀ (xs : List Xad) (ts : List XtTree), StoresAll env.device xs ts →
    ∃ fuel, ∀ n, fuel ≤ n → ∀ v, eachXad (getInternalXtpage env n) xs v
      = some (.ret (v ++ forestXads ts))
  | [], [], _ => ⟨0, fun n _ v => by rw [eachXad, forestXads, List.append_nil]⟩
  | x :: xs, t :: ts, h => by
    obtain ⟨fuel, hfuel⟩ := exists_appends x t h.1 h.2.1
    obtain ⟨fuel', hfuel'⟩ := exists_appends_all xs ts h.2.2
    refine ⟨max fuel fuel', fun n hn v => ?_⟩
    rw [eachXad, hfuel n (by omega) v]
    dsimp only
    rw [hfuel' n (by omega), forestXads, List.append_assoc]
  | [], _ :: _, h => h.elim
  | _ :: _, [], h => h.elim

end

/-- **The extents are those of the leaves, from left to right**: the root lies in the dinode
and has room for 18 entries, and the device holds the pages. -/
theorem collectXads_of_stores (h : Stores env.device d.byte rootPos 18 t) :
    ∃ fuel, ∀ n, fuel ≤ n → collectXads env n d = some (.ret t.leafXads) := by
  have hroot : Stores env.device (dinodeMemory env d) rootPos 18 t :=
    h.congr (by decide) (fun k hk => (if_pos (by unfold rootPos; omega)).symm)
  cases t with
  | leaf xads =>
    refine ⟨0, fun n _ => ?_⟩
    rw [collectXads, if_pos (hroot.flag.mpr trivial), getLeafXads, hroot.xads, List.nil_append,
      XtTree.leafXads]
  | internal xads kids =>
    obtain ⟨fuel, hfuel⟩ := exists_appends_all xads kids hroot.2
    refine ⟨fuel, fun n hn => ?_⟩
    rw [collectXads, if_neg (fun hl => hroot.1.flag.mp hl), getInternalXads, hroot.1.xads,
      hfuel n hn, List.nil_append, XtTree.leafXads]
    rfl

/-- A file whose root leads to three leaves, of which the second has no entries. -/
def threeLeaves : Env :=
  Device.zeroed
    { blocksize := .b512
      isBlk := true
      stSize := 16384
      data := fun k => ([(242, 5), (268, 8), (284, 16), (300, 24), (4112, 2), (4114, 3), (4136, 1),
        (4140, 4), (8208, 2), (8210, 2), (12304, 2), (12306, 3), (12324, 5), (12328, 1),
        (12332, 6)].lookup k).getD 0
      stSize_lt := by decide }

def threeLeavesTree : XtTree :=
  .internal [.of 0 0 8, .of 0 0 16, .of 0 0 24]
    [.leaf [.of 0 1 4], .leaf [], .leaf [.of 5 1 6]]

theorem stores_threeLeaves : Stores threeLeaves.device (threeLeaves.readDinode 0).byte rootPos 18
    threeLeavesTree := by
  refine ⟨⟨by decide, by decide, by decide, by decide⟩, ?_, ?_, ?_, ?_, ?_, ?_, trivial⟩
  · show _ ≤ _
    decide
  · exact ⟨by decide, by decide, by decide, by decide⟩
  · show _ ≤ _
    decide
  · exact ⟨by decide, by decide, by decide, by decide⟩
  · show _ ≤ _
    decide
  · exact ⟨by decide, by decide, by decide, by decide⟩

theorem collectXads_threeLeaves : ∃ fuel, ∀ n, fuel ≤ n →
    collectXads threeLeaves n (threeLeaves.readDinode 0)
      = some (.ret [.of 0 1 4, .of 5 1 6]) :=
  collectXads_of_stores stores_threeLeaves

end FileInode

end Jfsrec
