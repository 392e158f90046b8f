import Jfsrec.DtreeEnds
import Jfsrec.FreshNames

/-!
# Where the reading of a directory looks

The numbers of slots, the start of the sorted table of a page and the number of its entries
are bytes of the disk, some with a sign and some without, and `dirinode.cpp` compares none
of them with the size of the array that it indexes: 9 slots and a table of 8 entries in the
root, 128 slots in a page.  `extractIndices` are the indices that come up while a directory
is read.

`indicesInRange_iff` says when all of them lie inside the root and the pages.  In a page,
slots beyond the head of an entry always do, since their numbers have a sign.
-/

namespace Jfsrec

open Lib

inductive DirIndex
  /-- `root->header.stbl[i]` -/
  | rootStbl (i : ℤ)
  /-- `root->slot[k]` -/
  | rootSlot (k : ℤ)
  /-- `dtree.slot[header.stblindex]` -/
  | pageStart (k : ℤ)
  /-- `stbl[i]`, by its place in the page -/
  | pageStbl (p : ℤ)
  /-- `dtree.slot[k]` -/
  | pageSlot (k : ℤ)
deriving DecidableEq

def DirIndex.InRange : DirIndex → Prop
  | rootStbl i => 0 ≤ i ∧ i < 8
  | rootSlot k => 0 ≤ k ∧ k < 9
  | pageStart k => 0 ≤ k ∧ k < 128
  | pageStbl p => 0 ≤ p ∧ p < pageBytes
  | pageSlot k => 0 ≤ k ∧ k < 128

namespace DirInode

/-! ### The indices -/

def direntrySlots (m : Memory) (slot : ℤ) (headIndex : ℕ) : List ℤ :=
  headIndex :: chainOf m slot headIndex

def entriesIndices (m : Memory) (slot stbl count : ℤ) (stblAt slotAt : ℤ → DirIndex) :
    List DirIndex :=
  (List.range count.toNat).flatMap (fun i : ℕ =>
    stblAt i :: (direntrySlots m slot (m (stbl + i)).toNat).map slotAt)

/-- What `next_leaf` indexes, with the start of the table, which its callers compute. -/
def nextLeafIndices (env : Env) : ℕ → Buffer → List DirIndex
  | 0, _ => []
  | fuel + 1, dtree =>
      let m := env.memory pageBytes dtree
      .pageStart (Dtpage.stblindex m) ::
        if Dtpage.nextindex m = -1 then []
        else
          entriesIndices m 0 (Dtpage.stbl m) (Dtpage.nextindex m)
              (fun i => .pageStbl (Dtpage.stbl m + i)) .pageSlot ++
            if Dtpage.next m ≠ 0 then
              match env.device.readBytes (env.device.blockPos (Dtpage.next m)) pageBytes dtree with
              | .error _ => []
              | .ok dtree => nextLeafIndices env fuel dtree
            else []

def descendIndices (env : Env) : ℕ → Pxd → List DirIndex
  | 0, _ => []
  | fuel + 1, xd =>
      if unsane env.device xd then []
      else
        match env.device.readBytes (env.device.blockPos xd.addr) pageBytes env.fresh with
        | .error _ => []
        | .ok dtree =>
            let m := env.memory pageBytes dtree
            if isLeaf (Dtpage.flag m) then nextLeafIndices env fuel dtree
            else
              .pageStart (Dtpage.stblindex m) :: .pageStbl (Dtpage.stbl m) ::
                .pageSlot (m (Dtpage.stbl m)).toNat :: descendIndices env fuel (firstPxd m)

def rootMemory (env : Env) (byteOffset : ℕ) : Option Memory :=
  match env.device.readBytes (toInt64 byteOffset) 512 env.fresh with
  | .error _ => none
  | .ok inode =>
      if (Dinode.ofBuffer inode 0).diMode &&& IFMT ≠ IFDIR then none
      else some (env.memory 512 inode)

def extractIndices (env : Env) (fuel byteOffset : ℕ) : List DirIndex :=
  match rootMemory env byteOffset with
  | none => []
  | some m =>
      if isLeaf (Dtroot.flag m) then
        entriesIndices m Dtroot.slot Dtroot.stbl (Dtroot.nextindex m) .rootStbl .rootSlot
      else
        .rootStbl 0 :: .rootSlot (int8 (m Dtroot.stbl)) ::
          descendIndices env fuel (Dtroot.firstPxd m)

variable {env : Env} {m : Memory} {slot next k : ℤ} {fuel : ℕ} {s t : DirState} {x : DirIndex}

/-! ### The slots of an entry -/

/-- The chain is what the loop of `get_direntry` records in `rec`. -/
theorem visited_slotLoop (fuel : ℕ) (s : SlotLoop) :
    (slotLoop m slot fuel s).visited = s.visited ++ slotChain m slot fuel s.visited s.next := by
  induction fuel generalizing s with
  | zero => exact (List.append_nil _).symm
  | succ fuel ih =>
    rw [slotLoop, slotChain]
    by_cases h0 : s.next < 0
    · rw [if_pos h0, if_pos h0, List.append_nil]
    · rw [if_neg h0, if_neg h0]
      dsimp only
      by_cases hin : int8 (m (slot + 32 * s.next)) ∈ s.visited ++ [s.next]
      · rw [if_pos hin, if_pos hin]
      · rw [if_neg hin, if_neg hin, ih]
        exact List.append_assoc _ _ _

/-- From a slot to the slot whose number it has. -/
def SlotStep (m : Memory) (slot a b : ℤ) : Prop := 0 ≤ a ∧ b = int8 (m (slot + 32 * a))

def Linked (m : Memory) (slot next k : ℤ) : Prop :=
  0 ≤ k ∧ Relation.ReflTransGen (SlotStep m slot) next k

theorem linked_of_mem_slotChain {visited : List ℤ} (h : k ∈ slotChain m slot fuel visited next) :
    Linked m slot next k := by
  induction fuel generalizing visited next with
  | zero => cases h
  | succ fuel ih =>
    rw [slotChain] at h
    split at h
    · cases h
    · rename_i h0
      split at h
      · obtain rfl := List.mem_singleton.mp h
        exact ⟨by omega, .refl⟩
      · rcases List.mem_cons.mp h with rfl | h
        · exact ⟨by omega, .refl⟩
        · obtain ⟨hk, hreach⟩ := ih h
          exact ⟨hk, .head ⟨by omega, rfl⟩ hreach⟩

/-- Numbers that lead to one another and to nothing else are all there is. -/
theorem mem_of_closed {S : List ℤ} (hclosed : ∀ a ∈ S, int8 (m (slot + 32 * a)) ∈ S)
    (hnext : next ∈ S) (h : Relation.ReflTransGen (SlotStep m slot) next k) : k ∈ S := by
  induction h with
  | refl => exact hnext
  | tail _ hstep ih =>
    obtain ⟨_, rfl⟩ := hstep
    exact hclosed _ ih

/-- **The chain misses no slot**, with a fuel that lets it visit them all. -/
theorem mem_slotChain_of_linked {visited : List ℤ}
    (hbounded : SlotLoop.Bounded ⟨0, 0, next, visited, 0, fun _ => 0⟩)
    (hfuel : 129 ≤ fuel + visited.length)
    (hvisited : ∀ v ∈ visited, int8 (m (slot + 32 * v)) ∈ visited ++ [next])
    (h : Linked m slot next k) : k ∈ visited ∨ k ∈ slotChain m slot fuel visited next := by
  induction fuel generalizing visited next with
  | zero =>
    have hle : visited.length ≤ 128 := hbounded.length_le
    omega
  | succ fuel ih =>
    obtain ⟨hk, hreach⟩ := h
    rw [slotChain]
    by_cases h0 : next < 0
    · rcases Relation.ReflTransGen.cases_head hreach with rfl | ⟨_, ⟨hle, _⟩, _⟩
      · omega
      · omega
    · rw [if_neg h0]
      have hgrown : ∀ v ∈ visited ++ [next],
          int8 (m (slot + 32 * v)) ∈ (visited ++ [next]) ++ [int8 (m (slot + 32 * next))] := by
        intro v hv
        rcases List.mem_append.mp hv with hv | hv
        · exact List.mem_append_left _ (hvisited v hv)
        · rw [List.mem_singleton.mp hv]
          exact List.mem_append_right _ List.mem_cons_self
      by_cases hin : int8 (m (slot + 32 * next)) ∈ visited ++ [next]
      · -- the slot leads back, and nothing else is to come
        rw [if_pos hin, ← List.mem_append]
        refine mem_of_closed (fun a ha => ?_) (List.mem_append_right _ List.mem_cons_self) hreach
        rcases List.mem_append.mp (hgrown a ha) with h | h
        · exact h
        · rwa [List.mem_singleton.mp h]
      · rw [if_neg hin, List.mem_cons]
        rcases Relation.ReflTransGen.cases_head hreach with rfl | ⟨b, ⟨_, rfl⟩, hrest⟩
        · exact Or.inr (Or.inl rfl)
        · have hpush := hbounded.push h0 (int8_lt _) hin 0 0 0 (fun _ => 0)
          have hlen : 129 ≤ fuel + (visited ++ [next]).length := by
            rw [List.length_append, List.length_singleton]
            omega
          rcases ih hpush hlen hgrown ⟨hk, hrest⟩ with h | h
          · rcases List.mem_append.mp h with h | h
            · exact Or.inl h
            · exact Or.inr (Or.inl (List.mem_singleton.mp h))
          · exact Or.inr (Or.inr h)

/-- **The slots behind a head are those one gets to by `next`.** -/
theorem mem_chainOf_iff {headIndex : ℕ} :
    k ∈ chainOf m slot headIndex ↔
      Linked m slot (int8 (m (slot + 32 * headIndex + 4))) k := by
  refine ⟨linked_of_mem_slotChain, fun h => ?_⟩
  refine (mem_slotChain_of_linked ?_ (Nat.le_refl 129) (List.forall_mem_nil _) h).resolve_left
    List.not_mem_nil
  exact ⟨List.nodup_nil, List.forall_mem_nil _, int8_lt _, List.not_mem_nil⟩

theorem forall_mem_entriesIndices {stbl count : ℤ} {stblAt slotAt : ℤ → DirIndex}
    {P : DirIndex → Prop} :
    (∀ x ∈ entriesIndices m slot stbl count stblAt slotAt, P x) ↔ ∀ i : ℕ, (i : ℤ) < count →
      P (stblAt i) ∧ P (slotAt (m (stbl + i)).toNat) ∧
        ∀ k, Linked m slot (int8 (m (slot + 32 * (m (stbl + i)).toNat + 4))) k →
          P (slotAt k) := by
  rw [entriesIndices, List.forall_mem_flatMap]
  refine forall_congr' (fun i => ?_)
  rw [List.mem_range, List.forall_mem_cons, direntrySlots, List.map_cons, List.forall_mem_cons,
    List.forall_mem_map]
  refine imp_congr ?_ (and_congr_right' (and_congr_right' (forall_congr' (fun k => ?_))))
  · omega
  · rw [mem_chainOf_iff]

theorem Linked.lt (h : Linked m slot next k) (hnext : next < 128) : k < 128 := by
  obtain ⟨_, hreach⟩ := h
  induction hreach with
  | refl => exact hnext
  | tail _ hstep _ =>
    rw [hstep.2]
    exact int8_lt _

/-! ### The pages that are read -/

def leafIndices (m : Memory) : List DirIndex :=
  .pageStart (Dtpage.stblindex m) ::
    if Dtpage.nextindex m = -1 then []
    else entriesIndices m 0 (Dtpage.stbl m) (Dtpage.nextindex m)
      (fun i => .pageStbl (Dtpage.stbl m + i)) .pageSlot

def stateIndices (env : Env) : DirState → List DirIndex
  | .node xd =>
      if unsane env.device xd then []
      else
        match env.device.readBytes (env.device.blockPos xd.addr) pageBytes env.fresh with
        | .error _ => []
        | .ok dtree =>
            let m := env.memory pageBytes dtree
            if isLeaf (Dtpage.flag m) then []
            else [.pageStart (Dtpage.stblindex m), .pageStbl (Dtpage.stbl m),
              .pageSlot (m (Dtpage.stbl m)).toNat]
  | .leaf dtree => leafIndices (env.memory pageBytes dtree)

def indicesFrom (env : Env) (fuel : ℕ) : DirState → List DirIndex
  | .node xd => descendIndices env fuel xd
  | .leaf dtree => nextLeafIndices env fuel dtree

theorem indicesFrom_succ (s : DirState) :
    indicesFrom env (fuel + 1) s = stateIndices env s ++
      ((leads env s).getD []).flatMap (indicesFrom env fuel) := by
  cases s with
  | node xd =>
    rw [indicesFrom, descendIndices, stateIndices, leads]
    by_cases hbad : unsane env.device xd
    · rw [if_pos hbad, if_pos hbad, if_pos hbad]
      rfl
    · rw [if_neg hbad, if_neg hbad, if_neg hbad]
      cases env.device.readBytes (env.device.blockPos xd.addr) pageBytes env.fresh with
      | error e => rfl
      | ok dtree =>
        dsimp only
        by_cases hleaf : isLeaf (Dtpage.flag (env.memory pageBytes dtree))
        · rw [if_pos hleaf, if_pos hleaf, if_pos hleaf, Option.getD_some, List.flatMap_singleton]
          rfl
        · rw [if_neg hleaf, if_neg hleaf, if_neg hleaf, Option.getD_some, List.flatMap_singleton]
          rfl
  | leaf dtree =>
    rw [indicesFrom, nextLeafIndices, stateIndices, leafIndices, leads, List.cons_append]
    refine congrArg (_ :: ·) ?_
    by_cases hidx : Dtpage.nextindex (env.memory pageBytes dtree) = -1
    · rw [if_pos hidx, if_pos hidx, if_pos hidx]
      rfl
    · rw [if_neg hidx, if_neg hidx, if_neg hidx]
      refine congrArg (_ ++ ·) ?_
      by_cases hnext : Dtpage.next (env.memory pageBytes dtree) ≠ 0
      · rw [if_pos hnext, if_pos hnext]
        cases env.device.readBytes (env.device.blockPos
            (Dtpage.next (env.memory pageBytes dtree))) pageBytes dtree with
        | error e => rfl
        | ok dtree' =>
          rw [Option.getD_some, List.flatMap_singleton]
          rfl
      · rw [if_neg hnext, if_neg hnext]
        rfl

theorem mem_indicesFrom_succ :
    x ∈ indicesFrom env (fuel + 1) s ↔ x ∈ stateIndices env s ∨
      ∃ t, Kid (leads env) s t ∧ x ∈ indicesFrom env fuel t := by
  rw [indicesFrom_succ, List.mem_append, List.mem_flatMap]
  refine or_congr_right (exists_congr (fun t => and_congr_left' ?_))
  unfold Kid
  cases leads env s with
  | none => simp
  | some l => simp

/-- **The indices that come up are those of the pages that are got to.** -/
theorem exists_mem_indicesFrom_iff :
    (∃ fuel, x ∈ indicesFrom env fuel s) ↔
      ∃ t, Relation.ReflTransGen (Kid (leads env)) s t ∧ x ∈ stateIndices env t := by
  refine ⟨?_, ?_⟩
  · rintro ⟨fuel, h⟩
    induction fuel generalizing s with
    | zero => cases s <;> cases h
    | succ fuel ih =>
      rcases mem_indicesFrom_succ.mp h with h | ⟨t, hkid, h⟩
      · exact ⟨s, .refl, h⟩
      · obtain ⟨t', hreach, h'⟩ := ih h
        exact ⟨t', .head hkid hreach, h'⟩
  · rintro ⟨t, hreach, h⟩
    induction hreach using Relation.ReflTransGen.head_induction_on with
    | refl => exact ⟨1, mem_indicesFrom_succ.mpr (Or.inl h)⟩
    | head hkid _ ih =>
      obtain ⟨fuel, hfuel⟩ := ih
      exact ⟨fuel + 1, mem_indicesFrom_succ.mpr (Or.inr ⟨_, hkid, hfuel⟩)⟩

/-! ### Inside the pages -/

/-- The table of a leaf lies in the page, and its heads are slots of the page. -/
structure LeafInside (m : Memory) : Prop where
  start : 0 ≤ Dtpage.stblindex m
  table : Dtpage.stbl m + Dtpage.nextindex m ≤ pageBytes
  heads : ∀ i : ℕ, (i : ℤ) < Dtpage.nextindex m → (m (Dtpage.stbl m + i)).toNat < 128

/-- The first entry of the table of an internal page lies in the page, and so does its head. -/
structure InternalInside (m : Memory) : Prop where
  start : 0 ≤ Dtpage.stblindex m
  head : (m (Dtpage.stbl m)).toNat < 128

def StateInside (env : Env) : DirState → Prop
  | .node xd => ¬ unsane env.device xd → ∀ dtree,
      env.device.readBytes (env.device.blockPos xd.addr) pageBytes env.fresh = .ok dtree →
        ¬ isLeaf (Dtpage.flag (env.memory pageBytes dtree)) →
          InternalInside (env.memory pageBytes dtree)
  | .leaf dtree => LeafInside (env.memory pageBytes dtree)

theorem stblindex_lt (m : Memory) : Dtpage.stblindex m < 128 := int8_lt _

theorem internalInside_iff :
    (∀ x ∈ [DirIndex.pageStart (Dtpage.stblindex m), .pageStbl (Dtpage.stbl m),
      .pageSlot (m (Dtpage.stbl m)).toNat], x.InRange) ↔ InternalInside m := by
  have hlt := stblindex_lt m
  simp only [List.forall_mem_cons, DirIndex.InRange, Dtpage.stbl, pageBytes]
  refine ⟨fun h => ⟨h.1.1, ?_⟩, fun h => ⟨⟨h.start, hlt⟩, ?_, ⟨by omega, ?_⟩, by simp⟩⟩
  · have h' := h.2.2.1.2
    rw [Dtpage.stbl]
    omega
  · have h' := h.start
    omega
  · have h' := h.head
    rw [Dtpage.stbl] at h'
    omega

/-- **A leaf is read inside the page** exactly if its table and the heads in it are. -/
theorem leafInside_iff : (∀ x ∈ leafIndices m, x.InRange) ↔ LeafInside m := by
  have hlt := stblindex_lt m
  have hstbl : Dtpage.stbl m = 32 * Dtpage.stblindex m := rfl
  have hbytes : pageBytes = 4096 := rfl
  rw [leafIndices, List.forall_mem_cons]
  refine ⟨fun ⟨hstart, hrest⟩ => ?_, fun h => ⟨⟨h.start, hlt⟩, ?_⟩⟩
  · by_cases hidx : Dtpage.nextindex m = -1
    · exact ⟨hstart.1, by omega, fun i hi => by omega⟩
    · rw [if_neg hidx, forall_mem_entriesIndices] at hrest
      refine ⟨hstart.1, ?_, fun i hi => ?_⟩
      · by_contra hover
        -- the last entry of the table
        obtain ⟨⟨_, hp⟩, _⟩ := hrest (Dtpage.nextindex m - 1).toNat (by omega)
        omega
      · obtain ⟨_, ⟨_, hhead⟩, _⟩ := hrest i hi
        omega
  · by_cases hidx : Dtpage.nextindex m = -1
    · rw [if_pos hidx]
      exact List.forall_mem_nil _
    · rw [if_neg hidx, forall_mem_entriesIndices]
      have hstart := h.start
      have htable := h.table
      intro i hi
      have hhead := h.heads i hi
      refine ⟨⟨by omega, by omega⟩, ⟨by omega, by omega⟩, fun k hk => ⟨hk.1, ?_⟩⟩
      exact hk.lt (int8_lt _)

theorem stateInside_iff : (∀ x ∈ stateIndices env s, x.InRange) ↔ StateInside env s := by
  cases s with
  | leaf dtree => exact leafInside_iff
  | node xd =>
    rw [stateIndices, StateInside]
    by_cases hbad : unsane env.device xd
    · rw [if_pos hbad]
      exact ⟨fun _ h => absurd hbad h, fun _ => List.forall_mem_nil _⟩
    · rw [if_neg hbad]
      cases env.device.readBytes (env.device.blockPos xd.addr) pageBytes env.fresh with
      | error e => exact ⟨fun _ _ _ h => (by cases h), fun _ => List.forall_mem_nil _⟩
      | ok dtree =>
        dsimp only
        by_cases hleaf : isLeaf (Dtpage.flag (env.memory pageBytes dtree))
        · rw [if_pos hleaf]
          refine ⟨fun _ _ dtree' h hn => ?_, fun _ => List.forall_mem_nil _⟩
          obtain rfl := Except.ok.inj h
          exact absurd hleaf hn
        · rw [if_neg hleaf, internalInside_iff]
          refine ⟨fun h _ dtree' hd _ => ?_, fun h => h hbad dtree rfl hleaf⟩
          obtain rfl := Except.ok.inj hd
          exact h

/-! ### Inside the root -/

/-- The table of a root that is a leaf lies in the root, and so do the heads in it and the
slots that one gets to from them by `next`. -/
structure RootLeafInside (m : Memory) : Prop where
  table : Dtroot.nextindex m ≤ 8
  slots : ∀ i : ℕ, (i : ℤ) < Dtroot.nextindex m → (m (Dtroot.stbl + i)).toNat < 9 ∧
    ∀ k, Linked m Dtroot.slot
      (int8 (m (Dtroot.slot + 32 * (m (Dtroot.stbl + i)).toNat + 4))) k → k < 9

theorem rootLeafInside_iff :
    (∀ x ∈ entriesIndices m Dtroot.slot Dtroot.stbl (Dtroot.nextindex m) .rootStbl .rootSlot,
      x.InRange) ↔ RootLeafInside m := by
  rw [forall_mem_entriesIndices]
  refine ⟨fun h => ⟨?_, fun i hi => ⟨?_, fun k hk => ?_⟩⟩, fun h i hi => ?_⟩
  · by_contra hover
    obtain ⟨⟨_, hp⟩, _⟩ := h 8 (by omega)
    omega
  · obtain ⟨_, ⟨_, hhead⟩, _⟩ := h i hi
    omega
  · exact ((h i hi).2.2 k hk).2
  · obtain ⟨hhead, hlinked⟩ := h.slots i hi
    have htable := h.table
    exact ⟨⟨by omega, by omega⟩, ⟨by omega, by omega⟩, fun k hk => ⟨hk.1, hlinked k hk⟩⟩

/-- A directory indexes nothing outside its root and its pages. -/
def DirInside (env : Env) (byteOffset : ℕ) : Prop :=
  ∀ m, rootMemory env byteOffset = some m →
    (isLeaf (Dtroot.flag m) → RootLeafInside m) ∧
    (¬ isLeaf (Dtroot.flag m) → (0 ≤ int8 (m Dtroot.stbl) ∧ int8 (m Dtroot.stbl) < 9) ∧
      ∀ s, Relation.ReflTransGen (Kid (leads env)) (.node (Dtroot.firstPxd m)) s →
        StateInside env s)

/-- **All indices are in range** exactly if the tables and the slots that they name lie
inside: in a page, the table and the heads; in the root, further slots as well. -/
theorem indicesInRange_iff (env : Env) (byteOffset : ℕ) :
    (∀ fuel, ∀ x ∈ extractIndices env fuel byteOffset, x.InRange) ↔ DirInside env byteOffset := by
  unfold extractIndices DirInside
  cases rootMemory env byteOffset with
  | none => exact ⟨fun _ m h => (by cases h), fun _ _ => List.forall_mem_nil _⟩
  | some m =>
    dsimp only
    by_cases hleaf : isLeaf (Dtroot.flag m)
    · simp only [if_pos hleaf, rootLeafInside_iff]
      refine ⟨fun h m' hm => ?_, fun h _ => (h m rfl).1 hleaf⟩
      obtain rfl := Option.some.inj hm
      exact ⟨fun _ => h 0, fun hn => absurd hleaf hn⟩
    · simp only [if_neg hleaf, List.forall_mem_cons]
      refine ⟨fun h m' hm => ?_, fun h fuel => ?_⟩
      · obtain rfl := Option.some.inj hm
        refine ⟨fun hl => absurd hl hleaf, fun _ => ⟨(h 0).2.1, fun s hs => ?_⟩⟩
        refine stateInside_iff.mp (fun x hx => ?_)
        obtain ⟨fuel, hfuel⟩ := exists_mem_indicesFrom_iff.mpr ⟨s, hs, hx⟩
        exact (h fuel).2.2 x hfuel
      · obtain ⟨hslot, hpages⟩ := (h m rfl).2 hleaf
        refine ⟨⟨by omega, by omega⟩, hslot, fun x hx => ?_⟩
        obtain ⟨s, hs, hx'⟩ :=
          exists_mem_indicesFrom_iff.mp ⟨fuel, (show x ∈ indicesFrom env fuel (.node _) from hx)⟩
        exact stateInside_iff.mpr (hpages s hs) x hx'

/-- A directory whose only entry has its head in slot 9. -/
def pastRoot : Env :=
  (Device.disk [(53, 0x40), (240, 2), (241, 1), (248, 9)]).zeroed

/-- **The slot behind the inode is read.** -/
theorem not_indicesInRange_pastRoot :
    ¬ ∀ fuel, ∀ x ∈ extractIndices pastRoot fuel 0, x.InRange := by
  intro h
  have hmem : DirIndex.rootSlot 9 ∈ extractIndices pastRoot 0 0 := by decide +kernel
  have hrange : (0 : ℤ) ≤ 9 ∧ (9 : ℤ) < 9 := h 0 _ hmem
  omega

end DirInode

end Jfsrec
