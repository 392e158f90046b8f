import Jfsrec.Memory
import Jfsrec.Lib.Descent
import Jfsrec.Lib.Throws
import Mathlib.Data.Set.Finite.Lattice

/-!
# Extent trees

The extents of a file are the leaves of a B+-tree whose root lies in the inode.
`get_internal_xads` and `get_internal_xtpage` of `fileinode.cpp` collect them:
each entry of an internal node is the address of a page, and the pages are read
one after another wherever they are.  A page that cannot be read raises an
exception that `get_internal_xtpage` does not list, and that ends the program.

`collectXads_ends_iff` says that the collection ends exactly if no page it gets
to leads back to itself.
-/

namespace Jfsrec

open Lib

/-! ### Nodes of the tree -/

/-- `xad_t`: an extent of `len` blocks from `address` on, which is block `offset` of the
file. -/
structure Xad where
  offset : ℕ
  len : ℕ
  address : ℕ
  offset_lt : offset < 2 ^ 40
  len_lt : len < 2 ^ 24
  address_lt : address < 2 ^ 40
deriving DecidableEq

/-- The extent with these fields, cut to the bits that they have. -/
def Xad.of (offset len address : ℕ) : Xad where
  offset := offset % 2 ^ 40
  len := len % 2 ^ 24
  address := address % 2 ^ 40
  offset_lt := Nat.mod_lt _ (Nat.two_pow_pos 40)
  len_lt := Nat.mod_lt _ (Nat.two_pow_pos 24)
  address_lt := Nat.mod_lt _ (Nat.two_pow_pos 40)

theorem forty_lt (b : Buffer) (high low : ℕ) :
    (b high).toNat * 2 ^ 32 + leBytes b low 4 < 2 ^ 40 := by
  have h0 : (b high).toNat < 256 := (b high).toNat_lt
  have h1 : leBytes b low 4 < 256 ^ 4 := leBytes_lt _ _ _
  omega

def xadAt (b : Buffer) (p : ℕ) : Xad where
  offset := (b (p + 3)).toNat * 2 ^ 32 + leBytes b (p + 4) 4
  len := leBytes b (p + 8) 3
  address := (b (p + 11)).toNat * 2 ^ 32 + leBytes b (p + 12) 4
  offset_lt := forty_lt _ _ _
  len_lt := leBytes_lt b (p + 8) 3
  address_lt := forty_lt _ _ _

/-! `xtpage_t`, at a position of a block of memory -/

namespace Xtpage

variable (b : Buffer) (pos : ℕ)

def flag : UInt8 := b (pos + 16)
def nextindex : ℤ := int16 (leBytes b (pos + 18) 2)
/-- `xad[2]` up to `xad[nextindex - 1]` -/
def xads : List Xad :=
  (List.range (nextindex b pos - 2).toNat).map (fun i => xadAt b (pos + 16 * (i + 2)))

end Xtpage

/-! ### fileinode.cpp -/

inductive Exn
  | invalidRead (what : String)
  | filesystemError (what : String)
  | extentError (what : String)
  | badDirData (what : String)
deriving DecidableEq, Repr

def Exn.isInvalidRead : Exn → Bool
  | invalidRead _ => true
  | _ => false

def Exn.isFilesystemError : Exn → Bool
  | filesystemError _ => true
  | _ => false

def Exn.isExtentError : Exn → Bool
  | extentError _ => true
  | _ => false

/-- What `save_file` lists, and `FileInode::recover` catches. -/
def Exn.caught (e : Exn) : Bool := e.isFilesystemError || e.isInvalidRead

/-- `read_bytes`, which raises nothing but `invalid_read_exception`. -/
def Env.readBytes (env : Env) (off : ℤ) (count : ℕ) (buf : Buffer) : Outcome Exn Buffer :=
  match env.device.readBytes off count buf with
  | .ok buf => .ret buf
  | .error (.invalidRead what) => .raise (.invalidRead what)
  | .error _ => .terminate

theorem Env.readBytes_cases (env : Env) (off : ℤ) (count : ℕ) (buf : Buffer) :
    (∃ b, env.readBytes off count buf = .ret b) ∨
      ∃ what, env.readBytes off count buf = .raise (.invalidRead what) := by
  unfold Env.readBytes Device.readBytes
  split_ifs
  · exact Or.inr ⟨_, rfl⟩
  · exact Or.inr ⟨_, rfl⟩
  · exact Or.inr ⟨_, rfl⟩
  · exact Or.inl ⟨_, rfl⟩

namespace FileInode

def xtpageBytes : ℕ := 4096

/-- The loop of `get_internal_xads`, over the entries that are left. -/
def eachXad (visit : Xad → List Xad → Option (Outcome Exn (List Xad))) :
    List Xad → List Xad → Option (Outcome Exn (List Xad))
  | [], v => some (.ret v)
  | x :: xs, v =>
      match visit x v with
      | some (.ret v) => eachXad visit xs v
      | r => r

def getInternalXads (getInternalXtpage : Xad → List Xad → Option (Outcome Exn (List Xad)))
    (b : Buffer) (pos : ℕ) (v : List Xad) : Option (Outcome Exn (List Xad)) :=
  (eachXad getInternalXtpage (Xtpage.xads b pos) v).map
    (Outcome.spec (fun e => e.isFilesystemError || e.isExtentError || e.isInvalidRead))

def getLeafXads (b : Buffer) (pos : ℕ) (v : List Xad) : List Xad := v ++ Xtpage.xads b pos

/-- `get_internal_xtpage`; `none` when the fuel runs out.  Of all exceptions it lists
`extent_error` only. -/
def getInternalXtpage (env : Env) : ℕ → Xad → List Xad → Option (Outcome Exn (List Xad))
  | 0, _, _ => none
  | fuel + 1, xad, v =>
      Option.map (Outcome.spec Exn.isExtentError)
        (match env.readBytes (xad.address * env.device.blocksize.bytes) xtpageBytes env.fresh with
        | .raise e => some (.raise e)
        | .terminate => some .terminate
        | .ret xtree =>
            if Xtpage.nextindex xtree 0 ≤ 2 then some (.ret v)
            else if isLeaf (Xtpage.flag xtree 0) then some (.ret (getLeafXads xtree 0 v))
            else getInternalXads (getInternalXtpage env fuel) xtree 0 v)

def dinodeMemory (env : Env) (d : Dinode) : Buffer := fun k =>
  if k < 512 then d.byte k else env.fresh k

def rootPos : ℕ := 224

/-- What `save_file` collects, if the root has entries. -/
def collectXads (env : Env) (fuel : ℕ) (d : Dinode) : Option (Outcome Exn (List Xad)) :=
  let m := dinodeMemory env d
  if isLeaf (Xtpage.flag m rootPos) then some (.ret (getLeafXads m rootPos []))
  else getInternalXads (getInternalXtpage env fuel) m rootPos []

/-! ### The collection as a descent -/

/-- A node of the tree: the root, or the page at an address. -/
inductive XtNode
  | root
  | page (address : ℕ)
deriving DecidableEq

/-- The pages that the entries of a node lead to. -/
def pagesBelow (b : Buffer) (pos : ℕ) : List XtNode :=
  if isLeaf (Xtpage.flag b pos) then []
  else (Xtpage.xads b pos).map (fun x => .page x.address)

/-- The children of a node; a page that cannot be read raises an exception. -/
def xtKids (env : Env) (d : Dinode) : XtNode → Option (List XtNode)
  | .root => some (pagesBelow (dinodeMemory env d) rootPos)
  | .page address =>
      match env.readBytes (address * env.device.blocksize.bytes) xtpageBytes env.fresh with
      | .ret xtree => some (pagesBelow xtree 0)
      | _ => none

variable {env : Env} {d : Dinode} {fuel : ℕ}

theorem eachXad_visitAll {f : Xad → List Xad → Option (Outcome Exn (List Xad))}
    {g : XtNode → Option Bool}
    (h : ∀ x v, (f x v).map Outcome.isRet = g (.page x.address)) (xs v : List Xad) :
    (eachXad f xs v).map Outcome.isRet = visitAll g (xs.map (fun x => .page x.address)) := by
  induction xs generalizing v with
  | nil => rfl
  | cons x xs ih =>
    have hx := h x v
    rw [eachXad, List.map_cons]
    cases hf : f x v with
    | none =>
      rw [hf] at hx
      exact (visitAll_cons_none hx.symm).symm
    | some o =>
      rw [hf] at hx
      cases o with
      | ret v' =>
        rw [visitAll_cons_true hx.symm]
        exact ih v'
      | raise e => exact (visitAll_cons_false hx.symm).symm
      | terminate => exact (visitAll_cons_false hx.symm).symm

theorem map_isRet_spec (allowed : Exn → Bool) (r : Option (Outcome Exn (List Xad))) :
    (r.map (Outcome.spec allowed)).map Outcome.isRet = r.map Outcome.isRet := by
  rw [Option.map_map]
  congr 1
  funext o
  exact Outcome.isRet_spec allowed o

/-- A node without entries has no pages below it. -/
theorem xads_eq_nil {b : Buffer} {pos : ℕ} (h : Xtpage.nextindex b pos ≤ 2) :
    Xtpage.xads b pos = [] := by
  rw [Xtpage.xads, Int.toNat_of_nonpos (by omega)]
  rfl

theorem getInternalXtpage_visit (x : Xad) (v : List Xad) :
    (getInternalXtpage env fuel x v).map Outcome.isRet
      = visit (xtKids env d) fuel (.page x.address) := by
  induction fuel generalizing x v with
  | zero => rfl
  | succ fuel ih =>
    rw [getInternalXtpage, visit, xtKids, map_isRet_spec]
    cases env.readBytes (x.address * env.device.blocksize.bytes) xtpageBytes env.fresh with
    | raise e => rfl
    | terminate => rfl
    | ret xtree =>
      dsimp only
      rw [pagesBelow]
      by_cases hidx : Xtpage.nextindex xtree 0 ≤ 2
      · rw [if_pos hidx, xads_eq_nil hidx, List.map_nil, ite_self]
        rfl
      · rw [if_neg hidx]
        by_cases hleaf : isLeaf (Xtpage.flag xtree 0)
        · rw [if_pos hleaf, if_pos hleaf]
          rfl
        · rw [if_neg hleaf, if_neg hleaf, getInternalXads, map_isRet_spec]
          exact eachXad_visitAll ih _ _

theorem collectXads_visit :
    (collectXads env fuel d).map Outcome.isRet = visit (xtKids env d) (fuel + 1) .root := by
  rw [collectXads, visit, xtKids, pagesBelow]
  dsimp only
  by_cases hleaf : isLeaf (Xtpage.flag (dinodeMemory env d) rootPos)
  · rw [if_pos hleaf, if_pos hleaf]
    rfl
  · rw [if_neg hleaf, if_neg hleaf, getInternalXads, map_isRet_spec]
    exact eachXad_visitAll getInternalXtpage_visit _ _

/-! ### The collection ends -/

theorem finite_reached (env : Env) (d : Dinode) (a : XtNode) :
    {b | Relation.ReflTransGen (Live (xtKids env d)) a b}.Finite := by
  have hfin : (insert a (XtNode.page '' {a | a < 2 ^ 40})).Finite :=
    ((Set.finite_lt_nat _).image _).insert _
  have hbelow : ∀ b pos, ∀ n ∈ pagesBelow b pos,
      n ∈ insert a (XtNode.page '' {a | a < 2 ^ 40}) := by
    intro b pos n hn
    unfold pagesBelow at hn
    split at hn
    · cases hn
    · obtain ⟨x, _, rfl⟩ := List.mem_map.mp hn
      exact Or.inr ⟨x.address, x.address_lt, rfl⟩
  refine hfin.subset (fun n hn => ?_)
  cases hn with
  | refl => exact Or.inl rfl
  | tail _ hkid =>
    obtain ⟨l, hl, hmem⟩ := hkid.kid
    unfold xtKids at hl
    split at hl
    · obtain rfl := Option.some.inj hl
      exact hbelow _ _ n hmem
    · split at hl
      · obtain rfl := Option.some.inj hl
        exact hbelow _ _ n hmem
      · cases hl

/-- **The collection of the extents ends exactly if no page that it gets to leads back
to itself.** -/
theorem collectXads_ends_iff (env : Env) (d : Dinode) :
    (∃ fuel, (collectXads env fuel d).isSome) ↔
      ¬ ∃ n, Relation.ReflTransGen (Live (xtKids env d)) .root n ∧
        Relation.TransGen (Live (xtKids env d)) n n := by
  have hsome : ∀ fuel, (collectXads env fuel d).isSome
      = (visit (xtKids env d) (fuel + 1) .root).isSome := by
    intro fuel
    rw [← collectXads_visit, Option.isSome_map]
  rw [← visit_ends_iff (finite_reached env d .root)]
  constructor
  · rintro ⟨fuel, h⟩
    exact ⟨fuel + 1, by rw [← hsome]; exact h⟩
  · rintro ⟨fuel, h⟩
    obtain ⟨r, hr⟩ := Option.isSome_iff_exists.mp h
    refine ⟨fuel, ?_⟩
    rw [hsome, visit_mono (Nat.le_succ fuel) hr]
    rfl

/-- A file whose extent tree has a page that leads to that page. -/
def selfPage : Env :=
  (Device.disk [(53, 0x80), (242, 3), (268, 1), (530, 3), (556, 1)]).zeroed

/-- **A page that leads to itself** is read for ever. -/
theorem not_collectXads_selfPage :
    ¬ ∃ fuel, (collectXads selfPage fuel (selfPage.readDinode 0)).isSome := by
  have hroot : xtKids selfPage (selfPage.readDinode 0) .root = some [.page 1] := by decide
  have hpage : xtKids selfPage (selfPage.readDinode 0) (.page 1) = some [.page 1] := by decide
  have hlive : Live (xtKids selfPage (selfPage.readDinode 0)) (.page 1) (.page 1) :=
    ⟨[], [], hpage, by simp⟩
  intro h
  refine (collectXads_ends_iff selfPage (selfPage.readDinode 0)).mp h ⟨.page 1, ?_, .single hlive⟩
  exact .single ⟨[], [], hroot, by simp⟩

end FileInode

end Jfsrec
