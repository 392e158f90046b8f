import Jfsrec.Dtree
import Jfsrec.Lib.Descent
import Mathlib.Data.Set.Finite.Lattice
import Mathlib.Data.Fintype.Pi

/-!
# Directories that are never read to their end

`descend` and `next_leaf` follow what the disk says, with nothing that becomes
less on the way.  Together they are a descent over pages, `leads` from each page
to the next.  `extractInodeNames_ends_iff` says that reading a directory ends
exactly if no page it gets to leads back to itself.
-/

namespace Jfsrec

open Lib

/-- Where the reading of a directory is: at an extent to go down from, or with a leaf
in the page buffer. -/
inductive DirState
  | node (xd : Pxd)
  | leaf (dtree : Buffer)

namespace DirInode

variable {env : Env} {diNumber fuel : ℕ} {s t : DirState}

/-- The pages that a page leads to, of which there is at most one; `none` where an
exception is raised. -/
def leads (env : Env) : DirState → Option (List DirState)
  | .node xd =>
      if unsane env.device xd then none
      else
        match env.device.readBytes (env.device.blockPos xd.addr) pageBytes env.fresh with
        | .error _ => none
        | .ok dtree =>
            if isLeaf (Dtpage.flag (env.memory pageBytes dtree)) then some [.leaf dtree]
            else some [.node (firstPxd (env.memory pageBytes dtree))]
  | .leaf dtree =>
      let m := env.memory pageBytes dtree
      if Dtpage.nextindex m = -1 then none
      else if Dtpage.next m ≠ 0 then
        match env.device.readBytes (env.device.blockPos (Dtpage.next m)) pageBytes dtree with
        | .error _ => none
        | .ok dtree => some [.leaf dtree]
      else some []

/-! ### The two functions as a descent -/

theorem visitAll_singleton (f : DirState → Option Bool) (s : DirState) : visitAll f [s] = f s := by
  cases h : f s with
  | none => exact visitAll_cons_none h
  | some b =>
    cases b with
    | false => exact visitAll_cons_false h
    | true => exact visitAll_cons_true h

theorem nextLeaf_visit (dtree : Buffer) (vin : List DirEntry) :
    (nextLeaf env fuel dtree vin).map (fun r => r.1.isOk)
      = visit (leads env) fuel (.leaf dtree) := by
  induction fuel generalizing dtree vin with
  | zero => rfl
  | succ fuel ih =>
    rw [nextLeaf, visit, leads]
    dsimp only
    by_cases hidx : Dtpage.nextindex (env.memory pageBytes dtree) = -1
    · rw [if_pos hidx, if_pos hidx]
      rfl
    · rw [if_neg hidx, if_neg hidx]
      by_cases hnext : Dtpage.next (env.memory pageBytes dtree) ≠ 0
      · rw [if_pos hnext, if_pos hnext]
        cases env.device.readBytes
            (env.device.blockPos (Dtpage.next (env.memory pageBytes dtree))) pageBytes dtree with
        | error e => rfl
        | ok dtree' =>
          dsimp only
          rw [ih, visitAll_singleton]
      · rw [if_neg hnext, if_neg hnext]
        rfl

theorem descend_visit (diNumber : ℕ) (xd : Pxd) (vin : List DirEntry) :
    (descend env diNumber fuel xd vin).map (fun r => r.1.isOk)
      = visit (leads env) fuel (.node xd) := by
  induction fuel generalizing xd vin with
  | zero => rfl
  | succ fuel ih =>
    rw [descend, visit, leads]
    by_cases hbad : unsane env.device xd
    · rw [if_pos hbad, if_pos hbad]
      rfl
    · rw [if_neg hbad, if_neg hbad]
      cases env.device.readBytes (env.device.blockPos xd.addr) pageBytes env.fresh with
      | error e => rfl
      | ok dtree =>
        dsimp only
        by_cases hleaf : isLeaf (Dtpage.flag (env.memory pageBytes dtree))
        · rw [if_pos hleaf, if_pos hleaf]
          dsimp only
          rw [nextLeaf_visit, visitAll_singleton]
        · rw [if_neg hleaf, if_neg hleaf]
          dsimp only
          rw [ih, visitAll_singleton]

theorem leads_node {xd : Pxd} {l : List DirState} (h : leads env (.node xd) = some l) :
    ∃ dtree, env.device.readBytes (env.device.blockPos xd.addr) pageBytes env.fresh = .ok dtree ∧
      (l = [.leaf dtree] ∨ l = [.node (firstPxd (env.memory pageBytes dtree))]) := by
  rw [leads] at h
  split at h
  · cases h
  · split at h
    · cases h
    · rename_i dtree hread
      refine ⟨dtree, hread, ?_⟩
      split at h
      · exact Or.inl (Option.some.inj h).symm
      · exact Or.inr (Option.some.inj h).symm

theorem leads_leaf {dtree : Buffer} {l : List DirState} (h : leads env (.leaf dtree) = some l) :
    l = [] ∨ ∃ pos dtree', env.device.readBytes pos pageBytes dtree = .ok dtree' ∧
      l = [.leaf dtree'] := by
  rw [leads] at h
  split at h
  · cases h
  · split at h
    · split at h
      · cases h
      · rename_i dtree' hread
        exact Or.inr ⟨_, dtree', hread, (Option.some.inj h).symm⟩
    · exact Or.inl (Option.some.inj h).symm

theorem leads_length {l : List DirState} (h : leads env s = some l) : l.length ≤ 1 := by
  cases s with
  | node xd =>
    obtain ⟨dtree, _, rfl | rfl⟩ := leads_node h
    · exact Nat.le_refl 1
    · exact Nat.le_refl 1
  | leaf dtree =>
    rcases leads_leaf h with rfl | ⟨_, dtree', _, rfl⟩
    · exact Nat.zero_le 1
    · exact Nat.le_refl 1

theorem live_iff : Live (leads env) s t ↔ Kid (leads env) s t := by
  constructor
  · exact Live.kid
  · rintro ⟨l, hl, ht⟩
    obtain ⟨pre, post, rfl⟩ := List.append_of_mem ht
    refine ⟨pre, post, hl, fun c hc => ?_⟩
    have hlen := leads_length hl
    rw [List.length_append, List.length_cons] at hlen
    rw [List.eq_nil_of_length_eq_zero (by omega : pre.length = 0)] at hc
    cases hc

/-! ### Finitely many pages -/

theorem pxdAt_lt (m : Memory) (p : ℤ) : (pxdAt m p).len < 2 ^ 24 ∧ (pxdAt m p).addr < 2 ^ 40 := by
  have hlen : leAt m p 3 < 256 ^ 3 := leBytes_lt _ _ _
  have haddr : leAt m (p + 4) 4 < 256 ^ 4 := leBytes_lt _ _ _
  have hhigh : (m (p + 3)).toNat < 256 := (m (p + 3)).toNat_lt
  simp only [pxdAt]
  omega

/-- What a state can be: an extent descriptor of the disk, or a page, around which
memory is what it was. -/
def Possible (env : Env) : DirState → Prop
  | .node xd => xd.len < 2 ^ 24 ∧ xd.addr < 2 ^ 40
  | .leaf dtree => ∀ k, pageBytes ≤ k → dtree k = env.fresh k

theorem finite_possible (env : Env) : {s | Possible env s}.Finite := by
  have hnode : {s | ∃ xd : Pxd, s = DirState.node xd ∧ xd.len < 2 ^ 24 ∧
      xd.addr < 2 ^ 40}.Finite := by
    refine Set.Finite.subset (Set.Finite.image (fun p : ℕ × ℕ => DirState.node ⟨p.1, p.2⟩)
      ((Set.finite_lt_nat (2 ^ 24)).prod (Set.finite_lt_nat (2 ^ 40)))) ?_
    rintro _ ⟨xd, rfl, hlen, haddr⟩
    exact ⟨(xd.len, xd.addr), ⟨hlen, haddr⟩, rfl⟩
  have hbyte : Finite UInt8 := Finite.of_injective UInt8.toFin (fun _ _ h => UInt8.toFin_inj.mp h)
  have hleaf : {s | ∃ d : Buffer, s = DirState.leaf d ∧
      ∀ k, pageBytes ≤ k → d k = env.fresh k}.Finite := by
    -- such a page is one of the finitely many blocks of its size
    refine Set.Finite.subset (Set.finite_range (fun block : Fin pageBytes → UInt8 =>
      DirState.leaf (fun k => if h : k < pageBytes then block ⟨k, h⟩ else env.fresh k))) ?_
    rintro _ ⟨d, rfl, hd⟩
    refine ⟨fun k => d k, congrArg DirState.leaf ?_⟩
    funext k
    by_cases hk : k < pageBytes
    · exact dif_pos hk
    · rw [dif_neg hk, hd k (Nat.le_of_not_lt hk)]
  refine Set.Finite.subset (hnode.union hleaf) (fun s hs => ?_)
  cases s with
  | node xd => exact Or.inl ⟨xd, rfl, hs⟩
  | leaf d => exact Or.inr ⟨d, rfl, hs⟩

theorem possible_of_kid (hs : Possible env s) (h : Kid (leads env) s t) : Possible env t := by
  obtain ⟨l, hl, ht⟩ := h
  cases s with
  | node xd =>
    obtain ⟨dtree, hread, rfl | rfl⟩ := leads_node hl
    · rw [List.mem_singleton.mp ht]
      exact fun k hk => Device.readBytes_frame hread hk
    · rw [List.mem_singleton.mp ht]
      exact pxdAt_lt _ _
  | leaf dtree =>
    rcases leads_leaf hl with rfl | ⟨_, dtree', hread, rfl⟩
    · cases ht
    · rw [List.mem_singleton.mp ht]
      exact fun k hk => (Device.readBytes_frame hread hk).trans (hs k hk)

/-! ### Reading ends -/

/-- The extent that `extract_inode_names` goes down from, if the inode is a directory
with pages below its root. -/
def rootPxd (env : Env) (byteOffset : ℕ) : Option Pxd :=
  match env.device.readBytes (toInt64 byteOffset) 512 env.fresh with
  | .error _ => none
  | .ok inode =>
      let m := env.memory 512 inode
      if (Dinode.ofBuffer inode 0).diMode &&& IFMT ≠ IFDIR then none
      else if isLeaf (Dtroot.flag m) then none
      else some (Dtroot.firstPxd m)

theorem rootPxd_lt {off : ℕ} {xd : Pxd} (h : rootPxd env off = some xd) :
    xd.len < 2 ^ 24 ∧ xd.addr < 2 ^ 40 := by
  unfold rootPxd at h
  split at h
  · cases h
  · dsimp only at h
    split at h
    · cases h
    · split at h
      · cases h
      · rw [← Option.some.inj h]
        exact pxdAt_lt _ _

theorem isSome_extractInodeNames (off : ℕ) :
    (extractInodeNames env fuel diNumber off).isSome
      = (rootPxd env off).elim true (fun xd => (visit (leads env) fuel (.node xd)).isSome) := by
  rw [extractInodeNames, rootPxd]
  cases env.device.readBytes (toInt64 off) 512 env.fresh with
  | error e => rfl
  | ok inode =>
    dsimp only
    split
    · rfl
    · split
      · rfl
      · rw [Option.isSome_map]
        dsimp only [Option.elim]
        rw [← descend_visit diNumber _ [], Option.isSome_map]

/-- **Reading a directory ends exactly if no page it gets to leads back to itself.** -/
theorem extractInodeNames_ends_iff (env : Env) (diNumber off : ℕ) :
    (∃ fuel, (extractInodeNames env fuel diNumber off).isSome) ↔
      ¬ ∃ xd, rootPxd env off = some xd ∧ ∃ s,
        Relation.ReflTransGen (Kid (leads env)) (.node xd) s ∧
          Relation.TransGen (Kid (leads env)) s s := by
  have hlive : Live (leads env) = Kid (leads env) := by
    funext s t
    exact propext live_iff
  cases hroot : rootPxd env off with
  | none =>
    refine ⟨fun _ => by simp, fun _ => ⟨0, ?_⟩⟩
    rw [isSome_extractInodeNames, hroot]
    rfl
  | some xd =>
    have hfin : {s | Relation.ReflTransGen (Live (leads env)) (.node xd) s}.Finite := by
      refine (finite_possible env).subset (fun s hs => ?_)
      rw [hlive] at hs
      induction hs with
      | refl => exact rootPxd_lt hroot
      | tail _ hkid ih => exact possible_of_kid ih hkid
    have hends := visit_ends_iff hfin
    rw [hlive] at hends
    have hsome : (∃ fuel, (extractInodeNames env fuel diNumber off).isSome) ↔
        VisitEnds (leads env) (.node xd) := by
      refine exists_congr (fun fuel => ?_)
      rw [isSome_extractInodeNames, hroot]
      rfl
    rw [hsome, hends]
    refine not_congr ⟨fun h => ⟨xd, rfl, h⟩, ?_⟩
    rintro ⟨xd', hxd, h⟩
    obtain rfl := Option.some.inj hxd
    exact h

/-- A directory with a page whose first entry is that page. -/
def selfPage : Env :=
  (Device.disk [(53, 0x40), (248, 1), (256, 1), (260, 1), (533, 1), (544, 2), (576, 1),
    (580, 1)]).zeroed

/-- **A page that leads to itself** is read for ever. -/
theorem not_extractInodeNames_selfPage :
    ¬ ∃ fuel, (extractInodeNames selfPage fuel 3 0).isSome := by
  have hroot : rootPxd selfPage 0 = some ⟨1, 1⟩ := by decide
  have hkid : Kid (leads selfPage) (.node ⟨1, 1⟩) (.node ⟨1, 1⟩) :=
    ⟨[.node ⟨1, 1⟩], rfl, List.mem_singleton_self _⟩
  intro h
  exact (extractInodeNames_ends_iff selfPage 3 0).mp h ⟨_, hroot, _, .refl, .single hkid⟩

end DirInode

end Jfsrec
