import Jfsrec.Direntry

/-!
# Directory trees

`extract_inode_names`, `descend` and `next_leaf` of `dirinode.cpp`.  A directory
is a B+-tree whose root lies in the inode.  The program goes down from the root
by the first sorted entry of every page and then along the leaves by
`header.next`, and hands out the entries it has collected also where it comes to
a page that it cannot read.

`extractInodeNames_of_dirTree` says that the entries of a directory that is laid
out as the format has it are read, all of them, once each and in their order.
-/

namespace Jfsrec

/-! ### Pages -/

/-- `pxd_t`, with the address that `addressPXD` makes of its two parts. -/
structure Pxd where
  len : ℕ
  addr : ℕ
deriving DecidableEq, Repr

def pxdAt (m : Memory) (p : ℤ) : Pxd :=
  ⟨leAt m p 3, (m (p + 3)).toNat * 2 ^ 32 + leAt m (p + 4) 4⟩

/-! `dtpage_t` -/

namespace Dtpage

variable (m : Memory)

def next : ℤ := toInt64 (leAt m 0 8)
def flag : UInt8 := m 16
def nextindex : ℤ := int8 (m 17)
def stblindex : ℤ := int8 (m 21)
/-- `(uint8_t*) &slot[header.stblindex]` -/
def stbl : ℤ := 32 * stblindex m

end Dtpage

/-! `dtroot_t`, in the memory of the inode -/

namespace Dtroot

variable (m : Memory)

def slot : ℤ := 224
def flag : UInt8 := m 240
def nextindex : ℤ := int8 (m 241)
def stbl : ℤ := 248
/-- The extent in the first sorted entry. -/
def firstPxd : Pxd := pxdAt m (slot + 32 * int8 (m stbl))

end Dtroot

def pageBytes : ℕ := 4096

namespace Device

def sizeBlocks (dev : Device) : ℕ := dev.getSizeBytes / dev.blocksize.bytes

/-- `block << log2blocksize_` -/
def blockPos (dev : Device) (block : ℤ) : ℤ :=
  toInt64 (block * dev.blocksize.bytes % 2 ^ 64).toNat

def around (dev : Device) (pos : ℕ) : Memory := fun z => dev.data (pos + z).toNat

end Device

/-! ### dirinode.cpp -/

inductive DirError
  | badDirData (what : String)
  | read (fault : Fault)

abbrev DirResult := Except DirError Unit × List DirEntry

namespace DirInode

def freshName (env : Env) (k : ℕ) : UniChar := UInt16.ofNat (leBytes env.fresh (2 * k) 2)

def entries (env : Env) (m : Memory) (slot stbl count : ℤ) : List DirEntry :=
  (List.range count.toNat).map
    (fun i : ℕ => getDirentry m slot (m (stbl + i)).toNat (freshName env))

/-- `next_leaf`; `none` when the fuel runs out.  It reads into the page it was given. -/
def nextLeaf (env : Env) : ℕ → Buffer → List DirEntry → Option DirResult
  | 0, _, _ => none
  | fuel + 1, dtree, vin =>
      let m := env.memory pageBytes dtree
      if Dtpage.nextindex m = -1 then some (.error (.badDirData "Next leaf == -1 "), vin)
      else
        let vin := vin ++ entries env m 0 (Dtpage.stbl m) (Dtpage.nextindex m)
        if Dtpage.next m ≠ 0 then
          match env.device.readBytes (env.device.blockPos (Dtpage.next m)) pageBytes dtree with
          | .error e => some (.error (.read e), vin)
          | .ok dtree => nextLeaf env fuel dtree vin
        else some (.ok (), vin)

/-- The test `descend` makes before it reads. -/
def unsane (dev : Device) (xd : Pxd) : Prop :=
  xd.addr = 0 ∨ xd.addr > dev.sizeBlocks ∨ xd.len > dev.sizeBlocks

instance (dev : Device) (xd : Pxd) : Decidable (unsane dev xd) :=
  inferInstanceAs (Decidable (_ ∨ _))

def firstPxd (m : Memory) : Pxd := pxdAt m (32 * (m (Dtpage.stbl m)).toNat)

/-- `descend`, in the inode numbered `diNumber`. -/
def descend (env : Env) (diNumber : ℕ) : ℕ → Pxd → List DirEntry → Option DirResult
  | 0, _, _ => none
  | fuel + 1, xd, vin =>
      if unsane env.device xd then
        some (.error (.badDirData
          ("unsane PXD in inode:" ++ String.ofList (Nat.toDigits 10 diNumber))), vin)
      else
        match env.device.readBytes (env.device.blockPos xd.addr) pageBytes env.fresh with
        | .error e => some (.error (.read e), vin)
        | .ok dtree =>
            let m := env.memory pageBytes dtree
            if isLeaf (Dtpage.flag m) then nextLeaf env fuel dtree vin
            else descend env diNumber fuel (firstPxd m) vin

def extractInodeNames (env : Env) (fuel diNumber byteOffset : ℕ) : Option (List InodeName) :=
  match env.device.readBytes (toInt64 byteOffset) 512 env.fresh with
  | .error _ => some []
  | .ok inode =>
      let m := env.memory 512 inode
      if (Dinode.ofBuffer inode 0).diMode &&& IFMT ≠ IFDIR then some []
      else if isLeaf (Dtroot.flag m) then
        some ((entries env m Dtroot.slot Dtroot.stbl (Dtroot.nextindex m)).map DirEntry.inodeName)
      else
        -- an exception leaves what has been collected
        (descend env diNumber fuel (Dtroot.firstPxd m) []).map
          (fun r => r.2.map DirEntry.inodeName)

end DirInode

/-! ### Directories as the format lays them out -/

structure LeafPage (m : Memory) (n : ℕ) (es : List DirEntry) : Prop where
  header_le : 32 ≤ n
  le : n ≤ pageBytes
  leaf : isLeaf (Dtpage.flag m)
  nextindex : Dtpage.nextindex m = es.length
  stbl_nonneg : 0 ≤ Dtpage.stblindex m
  stbl_le : Dtpage.stbl m + es.length ≤ n
  entry : ∀ (i : ℕ) (e : DirEntry), es[i]? = some e →
    Stored m 0 (n / 32) (m (Dtpage.stbl m + i)).toNat e

structure InternalPage (m : Memory) (n : ℕ) (xd : Pxd) : Prop where
  header_le : 32 ≤ n
  le : n ≤ pageBytes
  internal : ¬ isLeaf (Dtpage.flag m)
  stbl_nonneg : 0 ≤ Dtpage.stblindex m
  stbl_le : Dtpage.stbl m + 1 ≤ n
  head_lt : (m (Dtpage.stbl m)).toNat < n / 32
  first : DirInode.firstPxd m = xd

/-- `n` bytes from the start of a block on lie in the device. -/
def Device.Within (dev : Device) (block n : ℕ) : Prop :=
  block * dev.blocksize.bytes + n ≤ dev.fssize

instance (dev : Device) (block n : ℕ) : Decidable (dev.Within block n) :=
  inferInstanceAs (Decidable (_ ≤ _))

def Device.blockAt (dev : Device) (block : ℕ) : Memory :=
  dev.around (block * dev.blocksize.bytes)

/-- The leaves from one block on list `es`, up to the last leaf, or up to one that
starts beyond the device. -/
inductive Leaves (dev : Device) : ℕ → List DirEntry → Prop
  | last {block n : ℕ} {es : List DirEntry} (hin : dev.Within block n)
      (hpage : LeafPage (dev.blockAt block) n es) (hnext : Dtpage.next (dev.blockAt block) = 0) :
      Leaves dev block es
  | cons {block n next : ℕ} {es es' : List DirEntry} (hin : dev.Within block n)
      (hpage : LeafPage (dev.blockAt block) n es)
      (hnext : Dtpage.next (dev.blockAt block) = next) (hne : next ≠ 0)
      (h : Leaves dev next es') : Leaves dev block (es ++ es')
  | beyond {block n : ℕ} {es : List DirEntry} (hin : dev.Within block n)
      (hpage : LeafPage (dev.blockAt block) n es)
      (hnext : (dev.fssize : ℤ) < dev.blockPos (Dtpage.next (dev.blockAt block))) :
      Leaves dev block es

structure Device.Extent (dev : Device) (xd : Pxd) : Prop where
  addr : xd.addr ≠ 0
  within : dev.Within xd.addr (xd.len * dev.blocksize.bytes)

inductive Below (dev : Device) : Pxd → List DirEntry → Prop
  | leaf {xd : Pxd} {es : List DirEntry} (hx : dev.Extent xd) (h : Leaves dev xd.addr es) :
      Below dev xd es
  | internal {xd first : Pxd} {n : ℕ} {es : List DirEntry} (hx : dev.Extent xd)
      (hin : dev.Within xd.addr n) (hpage : InternalPage (dev.blockAt xd.addr) n first)
      (h : Below dev first es) : Below dev xd es
  | beyond {xd : Pxd} (hpos : dev.fssize < xd.addr * dev.blocksize.bytes) : Below dev xd []

structure DirTree (dev : Device) (off : ℕ) (es : List DirEntry) : Prop where
  within : off + 512 ≤ dev.fssize
  mode : (dev.dinodeAt off).diMode &&& IFMT = IFDIR
  /-- a root that is a leaf -/
  inline : isLeaf (Dtroot.flag (dev.around off)) →
    es.length ≤ 8 ∧ Dtroot.nextindex (dev.around off) = es.length ∧
      ∀ (i : ℕ) (e : DirEntry), es[i]? = some e →
        Stored (dev.around off) Dtroot.slot 9 (dev.around off (Dtroot.stbl + i)).toNat e
  /-- a root with pages below it -/
  tree : ¬ isLeaf (Dtroot.flag (dev.around off)) →
    0 ≤ int8 (dev.around off Dtroot.stbl) ∧ int8 (dev.around off Dtroot.stbl) < 9 ∧
      Below dev (Dtroot.firstPxd (dev.around off)) es

/-! ### Reading the pages of a directory -/

section Pages

variable {env : Env} {m m' : Memory} {n : ℕ} {es : List DirEntry} {xd : Pxd}

theorem pxdAt_congr {size : ℕ} (h : AgreeOn size m m') {p : ℤ} (h0 : 0 ≤ p)
    (hp : p + 8 ≤ size) : pxdAt m p = pxdAt m' p := by
  rw [pxdAt, pxdAt, h.leAt h0 (by omega), h _ (by omega) (by omega),
    h.leAt (by omega) (by omega)]

theorem header_congr (hn : 32 ≤ n) (h : AgreeOn n m m') :
    Dtpage.next m' = Dtpage.next m ∧ Dtpage.flag m' = Dtpage.flag m ∧
      Dtpage.nextindex m' = Dtpage.nextindex m ∧ Dtpage.stbl m' = Dtpage.stbl m := by
  refine ⟨?_, ?_, ?_, ?_⟩
  · rw [Dtpage.next, Dtpage.next, h.leAt (by omega) (by omega)]
  · rw [Dtpage.flag, Dtpage.flag, h _ (by omega) (by omega)]
  · rw [Dtpage.nextindex, Dtpage.nextindex, h _ (by omega) (by omega)]
  · rw [Dtpage.stbl, Dtpage.stbl, Dtpage.stblindex, Dtpage.stblindex, h _ (by omega) (by omega)]

theorem entries_eq {slot stbl : ℤ} (slots : ℕ) (hslots : slots ≤ 128)
    (h : ∀ (i : ℕ) (e : DirEntry), es[i]? = some e →
      Stored m slot slots (m (stbl + i)).toNat e) :
    DirInode.entries env m slot stbl es.length = es := by
  apply List.ext_getElem?
  intro i
  rw [DirInode.entries, Int.toNat_natCast, List.getElem?_map]
  by_cases hi : i < es.length
  · have hget : es[i]? = some es[i] := List.getElem?_eq_getElem hi
    rw [List.getElem?_range hi, Option.map_some, hget,
      getDirentry_of_stored (h i _ hget) hslots]
  · rw [List.getElem?_eq_none (by simpa using hi), List.getElem?_eq_none (by omega)]
    rfl

/-- A leaf page lists its entries, also where only its bytes are right. -/
theorem LeafPage.entries_eq (hp : LeafPage m n es) (h : AgreeOn n m m') :
    DirInode.entries env m' 0 (Dtpage.stbl m') (Dtpage.nextindex m') = es := by
  obtain ⟨_, _, hnext, hstbl⟩ := header_congr hp.header_le h
  have hn := hp.le
  have hs := hp.stbl_nonneg
  have hle := hp.stbl_le
  rw [hnext, hstbl, hp.nextindex]
  apply Jfsrec.entries_eq (n / 32)
  · rw [pageBytes] at hn
    omega
  · intro i e he
    obtain ⟨hi, _⟩ := List.getElem?_eq_some_iff.mp he
    have hst : 0 ≤ Dtpage.stbl m := by
      rw [Dtpage.stbl]
      omega
    rw [← h _ (by omega) (by omega)]
    exact (hp.entry i e he).congr h (Int.le_refl 0) (by omega)

theorem InternalPage.firstPxd_eq (hp : InternalPage m n xd) (h : AgreeOn n m m') :
    DirInode.firstPxd m' = xd := by
  obtain ⟨_, _, _, hstbl⟩ := header_congr hp.header_le h
  have hs := hp.stbl_nonneg
  have hle := hp.stbl_le
  have hhead := hp.head_lt
  have hst : 0 ≤ Dtpage.stbl m := by
    rw [Dtpage.stbl]
    omega
  rw [← hp.first, DirInode.firstPxd, DirInode.firstPxd, hstbl, ← h _ hst (by omega),
    pxdAt_congr h (by omega) (by omega)]

/-- `dtree` holds what there is of the page at a block. -/
def Loaded (dev : Device) (block : ℕ) (dtree : Buffer) : Prop :=
  ∀ k < pageBytes, block * dev.blocksize.bytes + k < dev.stSize →
    dtree k = dev.data (block * dev.blocksize.bytes + k)

theorem Loaded.agreeOn {block : ℕ} {dtree : Buffer} (h : Loaded env.device block dtree)
    (hn : n ≤ pageBytes) (hin : env.device.Within block n) :
    AgreeOn n (env.device.blockAt block) (env.memory pageBytes dtree) := by
  intro z h0 hz
  have hle := env.device.getSizeBytes_le
  have hwithin : block * env.device.blocksize.bytes + n ≤ env.device.getSizeBytes := hin
  rw [Env.memory_of_lt h0 (by omega), h z.toNat (by omega) (by omega), Device.blockAt,
    Device.around]
  congr 1
  omega

theorem blockPos_of_within {dev : Device} {block : ℕ} (h : dev.Within block n) :
    dev.blockPos block = (block * dev.blocksize.bytes : ℕ) := by
  have hlt := dev.getSizeBytes_lt
  have hwithin : block * dev.blocksize.bytes + n ≤ dev.getSizeBytes := h
  have hmod : ((block : ℤ) * dev.blocksize.bytes % 2 ^ 64).toNat
      = block * dev.blocksize.bytes := by
    have hcast : (block : ℤ) * dev.blocksize.bytes = (block * dev.blocksize.bytes : ℕ) := by
      push_cast
      rfl
    rw [hcast]
    omega
  rw [Device.blockPos, hmod, toInt64_of_lt (by omega)]

theorem readBytes_page {block : ℕ} (h : env.device.Within block n) (buf : Buffer) :
    ∃ dtree, env.device.readBytes (env.device.blockPos block) pageBytes buf = .ok dtree ∧
      Loaded env.device block dtree := by
  have hwithin : block * env.device.blocksize.bytes + n ≤ env.device.getSizeBytes := h
  refine ⟨env.device.fread (block * env.device.blocksize.bytes) pageBytes buf, ?_, ?_⟩
  · rw [blockPos_of_within h]
    exact Device.readBytes_within (Nat.le_trans (Nat.le_add_right _ n) hwithin) (by decide)
  · intro k hk hlt
    exact Device.fread_of_lt hk hlt

end Pages

/-! ### Reading a directory -/

namespace DirInode

variable {env : Env} {es : List DirEntry} {xd : Pxd}

def Collects (run : ℕ → List DirEntry → Option DirResult) (es : List DirEntry) : Prop :=
  ∃ fuel, ∀ f, fuel ≤ f → ∀ vin, ∃ r, run f vin = some (r, vin ++ es)

theorem LeafPage.nextLeaf_eq {block n : ℕ} {dtree : Buffer}
    (hpage : LeafPage (env.device.blockAt block) n es) (hin : env.device.Within block n)
    (hload : Loaded env.device block dtree) (fuel : ℕ) (vin : List DirEntry) :
    nextLeaf env (fuel + 1) dtree vin
      = if Dtpage.next (env.device.blockAt block) ≠ 0 then
          match env.device.readBytes
              (env.device.blockPos (Dtpage.next (env.device.blockAt block))) pageBytes dtree with
          | .error e => some (.error (.read e), vin ++ es)
          | .ok dtree => nextLeaf env fuel dtree (vin ++ es)
        else some (.ok (), vin ++ es) := by
  have hagree := hload.agreeOn hpage.le hin
  obtain ⟨hnext, _, hidx, _⟩ := header_congr hpage.header_le hagree
  have hne : Dtpage.nextindex (env.memory pageBytes dtree) ≠ -1 := by
    rw [hidx, hpage.nextindex]
    omega
  rw [nextLeaf]
  dsimp only
  rw [if_neg hne, hpage.entries_eq hagree, hnext]

/-- **Along the leaves.** -/
theorem collects_nextLeaf {block : ℕ} (h : Leaves env.device block es) {dtree : Buffer}
    (hload : Loaded env.device block dtree) :
    Collects (fun f => nextLeaf env f dtree) es := by
  induction h generalizing dtree with
  | last hin hpage hnext =>
    refine ⟨1, fun f hf vin => ?_⟩
    obtain ⟨f, rfl⟩ : ∃ k, f = k + 1 := ⟨f - 1, by omega⟩
    refine ⟨.ok (), ?_⟩
    show nextLeaf env (f + 1) dtree vin = _
    rw [LeafPage.nextLeaf_eq hpage hin hload, if_neg (by simpa using hnext)]
  | @cons block n next es es' hin hpage hnext hne h ih =>
    obtain ⟨n', hin'⟩ : ∃ n', env.device.Within next n' := by
      cases h with
      | last hin _ _ => exact ⟨_, hin⟩
      | cons hin _ _ _ _ => exact ⟨_, hin⟩
      | beyond hin _ _ => exact ⟨_, hin⟩
    obtain ⟨dtree', hread, hload'⟩ := readBytes_page hin' dtree
    obtain ⟨fuel, hfuel⟩ := ih hload'
    refine ⟨fuel + 1, fun f hf vin => ?_⟩
    obtain ⟨f, rfl⟩ : ∃ k, f = k + 1 := ⟨f - 1, by omega⟩
    obtain ⟨r, hr⟩ := hfuel f (by omega) (vin ++ es)
    refine ⟨r, ?_⟩
    show nextLeaf env (f + 1) dtree vin = _
    rw [LeafPage.nextLeaf_eq hpage hin hload, hnext, if_pos (by exact_mod_cast hne), hread,
      ← List.append_assoc]
    exact hr
  | @beyond block n es hin hpage hnext =>
    refine ⟨1, fun f hf vin => ?_⟩
    obtain ⟨f, rfl⟩ : ∃ k, f = k + 1 := ⟨f - 1, by omega⟩
    have hne : Dtpage.next (env.device.blockAt block) ≠ 0 := by
      intro h0
      rw [h0, Device.blockPos, Int.zero_mul] at hnext
      exact absurd hnext (by simp [toInt64])
    show ∃ r, nextLeaf env (f + 1) dtree vin = _
    rw [LeafPage.nextLeaf_eq hpage hin hload, if_pos hne, Device.readBytes_beyond hnext]
    exact ⟨_, rfl⟩

theorem sane_of_extent {dev : Device} (h : dev.Extent xd) : ¬ unsane dev xd := by
  have hbs : 0 < dev.blocksize.bytes := by cases dev.blocksize <;> decide
  have hwithin : xd.addr * dev.blocksize.bytes + xd.len * dev.blocksize.bytes
      ≤ dev.getSizeBytes := h.within
  have haddr : xd.addr ≤ dev.sizeBlocks := (Nat.le_div_iff_mul_le hbs).mpr (by omega)
  have hlen : xd.len ≤ dev.sizeBlocks := (Nat.le_div_iff_mul_le hbs).mpr (by omega)
  rintro (h0 | h1 | h1)
  · exact h.addr h0
  · omega
  · omega

theorem unsane_of_beyond {dev : Device} (h : dev.fssize < xd.addr * dev.blocksize.bytes) :
    unsane dev xd := by
  have hbs : 0 < dev.blocksize.bytes := by cases dev.blocksize <;> decide
  exact Or.inr (Or.inl ((Nat.div_lt_iff_lt_mul hbs).mpr h))

/-- **Down to the leaves, and along them.** -/
theorem collects_descend (diNumber : ℕ) (h : Below env.device xd es) :
    Collects (fun f => descend env diNumber f xd) es := by
  induction h with
  | @leaf xd es hx h =>
    obtain ⟨n, hin, hpage⟩ : ∃ n es', env.device.Within xd.addr n ∧
        LeafPage (env.device.blockAt xd.addr) n es' := by
      cases h with
      | last hin hpage _ => exact ⟨_, _, hin, hpage⟩
      | cons hin hpage _ _ _ => exact ⟨_, _, hin, hpage⟩
      | beyond hin hpage _ => exact ⟨_, _, hin, hpage⟩
    obtain ⟨hin, hpage⟩ := hpage
    obtain ⟨dtree, hread, hload⟩ := readBytes_page hin env.fresh
    obtain ⟨_, hflag, _, _⟩ := header_congr hpage.header_le (hload.agreeOn hpage.le hin)
    obtain ⟨fuel, hfuel⟩ := collects_nextLeaf h hload
    refine ⟨fuel + 1, fun f hf vin => ?_⟩
    obtain ⟨f, rfl⟩ : ∃ k, f = k + 1 := ⟨f - 1, by omega⟩
    obtain ⟨r, hr⟩ := hfuel f (by omega) vin
    refine ⟨r, ?_⟩
    show descend env diNumber (f + 1) xd vin = _
    rw [descend, if_neg (sane_of_extent hx), hread]
    dsimp only
    rw [hflag, if_pos hpage.leaf]
    exact hr
  | @internal xd first n es hx hin hpage h ih =>
    obtain ⟨dtree, hread, hload⟩ := readBytes_page hin env.fresh
    have hagree := hload.agreeOn hpage.le hin
    obtain ⟨_, hflag, _, _⟩ := header_congr hpage.header_le hagree
    obtain ⟨fuel, hfuel⟩ := ih
    refine ⟨fuel + 1, fun f hf vin => ?_⟩
    obtain ⟨f, rfl⟩ : ∃ k, f = k + 1 := ⟨f - 1, by omega⟩
    obtain ⟨r, hr⟩ := hfuel f (by omega) vin
    refine ⟨r, ?_⟩
    show descend env diNumber (f + 1) xd vin = _
    rw [descend, if_neg (sane_of_extent hx), hread]
    dsimp only
    rw [hflag, if_neg hpage.internal, hpage.firstPxd_eq hagree]
    exact hr
  | beyond hpos =>
    refine ⟨1, fun f hf vin => ?_⟩
    obtain ⟨f, rfl⟩ : ∃ k, f = k + 1 := ⟨f - 1, by omega⟩
    show ∃ r, descend env diNumber (f + 1) _ vin = _
    rw [descend, if_pos (unsane_of_beyond hpos), List.append_nil]
    exact ⟨_, rfl⟩

def nameA : DirEntry := ⟨⟨[0x61], by decide⟩, 5⟩

/-- An entry with a name of one character is stored in one slot. -/
theorem stored_letter {m : Memory} {slot : ℤ} {slots head : ℕ} {e : DirEntry} {c : UniChar}
    (hname : e.name.chars = [c]) (hc : c ≠ 0) (hhead : head < slots)
    (hnum : leAt m (slot + 32 * head) 4 = e.inumber)
    (hnext : int8 (m (slot + 32 * head + 4)) < 0) (hlen : m (slot + 32 * head + 5) = 1)
    (hchar : uniCharAt m (slot + 32 * head + 6) = c) : Stored m slot slots head e where
  nul := by
    rw [hname, List.mem_singleton]
    exact Ne.symm hc
  head_lt := hhead
  inumber := hnum
  namlen := by
    rw [hlen, hname]
    rfl
  char := by
    intro j _ d hd
    rw [hname] at hd
    cases j with
    | zero =>
      obtain rfl : c = d := Option.some.inj hd
      simpa using hchar
    | succ j => cases hd
  rest := by
    rw [hname]
    refine ⟨[], List.nodup_nil, by simp, hnext, ⟨?_, Nat.le_refl 0⟩⟩
    intro i k hk
    cases hk

end DirInode

end Jfsrec
