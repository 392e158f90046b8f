import Jfsrec.Recovery
import Jfsrec.SingleOwner
import Jfsrec.XtreeLeaves

/-!
# Where the device holds a tree

`Volume` says what an intact device holds: an inode numbered 2 that is the root, directories whose
pages list what is in them, and a path for every inode.  Inodes that no directory lists are allowed;
they have their number as the name.

There the recovery needs nobody of the invalidated inodes, and the names are in order: the paths
are those of the volume, `Volume.orderly`.
-/

namespace Jfsrec

open Lib InodeVector Recoverer

structure Writable (legal : List Char → Bool) (name : List Char) : Prop where
  component : Component name
  good : badName name = false
  legal : legal name = true

/-- What a device holds whose inodes are `l`: what the directories list, and the path that goes with
every number. -/
structure Volume (legal : List Char → Bool) (dev : Device) (l : List View)
    (entries : ℕ → List DirEntry) (pathOf : ℕ → Path) : Prop where
  root : ∃ r ∈ l, r.kind = .dir ∧ r.diNumber = 2 ∧ r.parentDiNumber = 2 ∧
    pathOf 2 = ["original_root".toList]
  pages : ∀ d ∈ l, d.kind = .dir → DirTree dev d.byteOffset (entries d.diNumber)
  parents : ∀ d ∈ l, d.kind = .dir → ∃ p ∈ l, p.kind = .dir ∧ p.diNumber = d.parentDiNumber
  listed : ∀ d ∈ l, d.kind = .dir → ∀ e ∈ entries d.diNumber, ∃ x ∈ l, x.diNumber = e.inumber ∧
    x.diNumber ≠ 2 ∧ pathOf x.diNumber = pathOf d.diNumber ++ [e.name.toUtf8]
  writable : ∀ d ∈ l, d.kind = .dir → ∀ e ∈ entries d.diNumber, Writable legal e.name.toUtf8
  unlisted : ∀ x ∈ l, x.diNumber ≠ 2 →
    (∀ d ∈ l, d.kind = .dir → ∀ e ∈ entries d.diNumber, e.inumber ≠ x.diNumber) →
    pathOf x.diNumber = (if x.kind = .dir then pathOf x.parentDiNumber else [])
      ++ [Nat.toDigits 10 x.diNumber]
  injective : ∀ x ∈ l, ∀ y ∈ l, pathOf x.diNumber = pathOf y.diNumber → x.diNumber = y.diNumber

variable {legal : List Char → Bool} {env : Env} {v : InodeVector} {entries : ℕ → List DirEntry}
  {pathOf : ℕ → Path} {names : Ptr → List InodeName} {p q : Ptr}

/-! ### What the device holds is read -/

theorem Env.readBytes_inode (env : Env) {off : ℕ} (h : off + 512 ≤ env.device.fssize) :
    ∃ b, env.device.readBytes (toInt64 off) 512 env.fresh = .ok b ∧
      Dinode.ofBuffer b 0 = env.device.dinodeAt off ∧
      AgreeOn 512 (env.device.around off) (env.memory 512 b) := by
  have hlt := env.device.getSizeBytes_lt
  have hle := env.device.getSizeBytes_le
  have hwithin : off + 512 ≤ env.device.getSizeBytes := h
  refine ⟨env.device.fread off 512 env.fresh, ?_, Dinode.ofBuffer_congr (fun k hk => ?_),
    fun z h0 hz => ?_⟩
  · rw [toInt64_of_lt (by omega)]
    exact Device.readBytes_within (by omega) (by decide)
  · rw [Nat.zero_add, Device.fread_of_lt hk (by omega)]
  · rw [Env.memory_of_lt h0 hz, Device.fread_of_lt (by omega) (by omega), Device.around]
    congr 1
    omega

theorem exists_fuel_extractInodeNames {off : ℕ} {es : List DirEntry}
    (h : DirTree env.device off es) (diNumber : ℕ) : ∃ fuel, ∀ n, fuel ≤ n →
      DirInode.extractInodeNames env n diNumber off = some (es.map DirEntry.inodeName) := by
  obtain ⟨b, hread, hinode, hagree⟩ := env.readBytes_inode h.within
  have hmode : ¬ (Dinode.ofBuffer b 0).diMode &&& IFMT ≠ IFDIR := by
    rw [hinode]
    exact not_not.mpr h.mode
  have hflag : Dtroot.flag (env.memory 512 b) = Dtroot.flag (env.device.around off) :=
    (hagree 240 (by decide) (by decide)).symm
  by_cases hleaf : isLeaf (Dtroot.flag (env.device.around off))
  · -- the entries stand in the inode
    obtain ⟨hlen, hidx, hentry⟩ := h.inline hleaf
    have hidx' : Dtroot.nextindex (env.memory 512 b) = es.length := by
      rw [← hidx, Dtroot.nextindex, Dtroot.nextindex, hagree 241 (by decide) (by decide)]
    have hes : DirInode.entries env (env.memory 512 b) Dtroot.slot Dtroot.stbl es.length = es := by
      refine entries_eq 9 (by decide) (fun i e he => ?_)
      obtain ⟨hi, -⟩ := List.getElem?_eq_some_iff.mp he
      rw [← hagree _ (by rw [Dtroot.stbl]; omega) (by rw [Dtroot.stbl]; omega)]
      exact (hentry i e he).congr hagree (by decide) (by decide)
    refine ⟨0, fun n _ => ?_⟩
    rw [DirInode.extractInodeNames, hread]
    dsimp only
    rw [if_neg hmode, hflag, if_pos hleaf, hidx', hes]
  · obtain ⟨h0, h9, hbelow⟩ := h.tree hleaf
    have hfirst : Dtroot.firstPxd (env.memory 512 b)
        = Dtroot.firstPxd (env.device.around off) := by
      rw [Dtroot.firstPxd, Dtroot.firstPxd, ← hagree Dtroot.stbl (by decide) (by decide)]
      exact (pxdAt_congr hagree (by rw [Dtroot.slot]; omega) (by rw [Dtroot.slot]; omega)).symm
    obtain ⟨fuel, hfuel⟩ := DirInode.collects_descend diNumber hbelow
    refine ⟨fuel, fun n hn => ?_⟩
    obtain ⟨r, hr⟩ := hfuel n hn []
    rw [DirInode.extractInodeNames, hread]
    dsimp only at hr ⊢
    rw [if_neg hmode, hflag, if_neg hleaf, hfirst, hr]
    rfl

namespace FileInode

structure Held (env : Env) (d : Dinode) (t : XtTree) : Prop where
  extents : 2 < Xtpage.nextindex (dinodeMemory env d) rootPos
  size : 0 ≤ d.diSize
  pages : Stores env.device d.byte rootPos 18 t
  placed : WellPlaced env t.leafXads

theorem Held.exists_fuel_collectXads {d : Dinode} {t : XtTree} (h : Held env d t) :
    ∃ fuel, ∀ n, fuel ≤ n → collectXads env n d = some (.ret t.leafXads) := by
  have hbytes : ∀ k < 16 * 18, d.byte (rootPos + k) = dinodeMemory env d (rootPos + k) :=
    fun k hk => (if_pos (by unfold rootPos; omega)).symm
  have hpages := h.pages
  cases t with
  | leaf xads =>
    have hnode : NodeHolds (dinodeMemory env d) rootPos 18 True xads :=
      NodeHolds.congr hpages (by decide) hbytes
    refine ⟨0, fun n _ => ?_⟩
    rw [collectXads, if_pos (hnode.flag.mpr trivial), getLeafXads, hnode.xads]
    rfl
  | internal xads kids =>
    have hnode : NodeHolds (dinodeMemory env d) rootPos 18 False xads :=
      hpages.1.congr (by decide) hbytes
    obtain ⟨fuel, hfuel⟩ := exists_appends_all xads kids hpages.2
    refine ⟨fuel, fun n hn => ?_⟩
    rw [collectXads, if_neg (fun hl => hnode.flag.mp hl), getInternalXads, hnode.xads,
      hfuel n hn]
    rfl

end FileInode

/-! ### Nobody is brought up -/

namespace Recoverer

theorem parentClosure_of_nothingToReadmit (hn : NothingToReadmit names v) (hv : v.Indexed env) :
    parentClosure env v = v.inodes := by
  obtain ⟨w, hw, -, hin⟩ := findDirectoryParents_spec hv
  rw [← hin]
  exact (Unchanged.findDirectoryParents hn hv hw).inodes

theorem recovered_of_nothingToReadmit (hn : NothingToReadmit names v) (hv : v.Indexed env)
    (hnew : Unnamed v.heap) : recovered env names v = v.inodes := by
  obtain ⟨w, u, hw, hu, -, hin, -⟩ := named_recovered names hv hnew
  rw [← hin]
  exact (unchanged_of_reached hn hv (.done hw hu)).inodes

end Recoverer

def volumeNames (entries : ℕ → List DirEntry) (h : Heap) : Ptr → List InodeName :=
  listing h (fun p => (entries (h.number p)).map DirEntry.inodeName)

theorem mem_volumeNames {h : Heap} {e : InodeName} : e ∈ volumeNames entries h p ↔
    h.isDir p ∧ ∃ e' ∈ entries (h.number p), e'.inodeName = e := by
  rw [volumeNames, listing]
  by_cases hd : h.isDir p
  · rw [if_pos hd, List.mem_map]
    exact (and_iff_right hd).symm
  · rw [if_neg hd]
    exact iff_of_false List.not_mem_nil (fun h => hd h.1)

namespace Volume

variable (hvol : Volume legal env.device (v.views env) entries pathOf)
include hvol

theorem nothingToReadmit : NothingToReadmit (volumeNames entries v.heap) v := by
  intro c hc d hd
  refine Or.inl ?_
  rcases List.mem_append.mp hd with hd | hd
  · rw [Recoverer.dotdot] at hd
    split at hd
    · rename_i hdir
      obtain ⟨x, hx, -, hnum⟩ := hvol.parents _ (List.mem_map_of_mem hc) hdir
      obtain ⟨r, hr, rfl⟩ := List.mem_map.mp hx
      rw [List.mem_singleton.mp hd]
      exact List.mem_map.mpr ⟨r, hr, hnum⟩
    · cases hd
  · obtain ⟨e, he, rfl⟩ := List.mem_map.mp hd
    obtain ⟨hdir, e', he', rfl⟩ := mem_volumeNames.mp he
    obtain ⟨x, hx, hnum, -⟩ := hvol.listed _ (List.mem_map_of_mem hc) hdir e' he'
    obtain ⟨r, hr, rfl⟩ := List.mem_map.mp hx
    exact List.mem_map.mpr ⟨r, hr, hnum⟩

theorem recovered_eq (hv : v.Indexed env) (hnew : Unnamed v.heap) :
    recovered env (volumeNames entries v.heap) v = v.inodes :=
  recovered_of_nothingToReadmit hvol.nothingToReadmit hv hnew

theorem parentClosure_eq (hv : v.Indexed env) : parentClosure env v = v.inodes :=
  parentClosure_of_nothingToReadmit hvol.nothingToReadmit hv

/-! ### Names and places -/

/-- **The last entry for an inode** is in the directory that its path says. -/
theorem lastEntry_some (hv : v.Indexed env) (hnew : Unnamed v.heap) {c : Ptr × InodeName}
    (hc : lastEntry env (volumeNames entries v.heap) v p = some c) :
    c.1 ∈ v.inodes ∧ v.heap.isDir c.1 ∧ v.heap.number p ≠ 2 ∧ Writable legal c.2.name ∧
      pathOf (v.heap.number p) = pathOf (v.heap.number c.1) ++ [c.2.name] := by
  rw [lastEntry, hvol.recovered_eq hv hnew] at hc
  obtain ⟨hmem, hfind⟩ := lastFor_mem hc
  obtain ⟨d, hd, hmem⟩ := List.mem_flatMap.mp hmem
  obtain ⟨e, he, rfl⟩ := List.mem_map.mp hmem
  obtain ⟨hdir, e', he', rfl⟩ := mem_volumeNames.mp he
  have hview : v.heap.view env d ∈ v.views env := List.mem_map_of_mem hd
  obtain ⟨x, -, hnum, hne, hpath⟩ := hvol.listed _ hview hdir e' he'
  have hp : v.heap.number p = e'.inumber := (newest_mem hfind).2
  rw [hnum] at hne hpath
  rw [hp]
  exact ⟨hd, hdir, hne, hvol.writable _ hview hdir e' he', hpath⟩

variable (hnodup : (v.inodes.map v.heap.number).Nodup)
include hnodup

theorem lastEntry_none (hv : v.Indexed env) (hnew : Unnamed v.heap) (hp : p ∈ v.inodes)
    (hc : lastEntry env (volumeNames entries v.heap) v p = none) :
    ∀ d ∈ v.views env, d.kind = .dir → ∀ e ∈ entries d.diNumber, e.inumber ≠ v.heap.number p := by
  rw [lastEntry, hvol.recovered_eq hv hnew, lastFor_eq_none] at hc
  intro x hx hdir e he hnum
  obtain ⟨d, hd, rfl⟩ := List.mem_map.mp hx
  have hmem : e.inodeName ∈ volumeNames entries v.heap d :=
    mem_volumeNames.mpr ⟨hdir, e, he, rfl⟩
  refine hc (d, e.inodeName) (List.mem_flatMap.mpr ⟨d, hd, List.mem_map_of_mem hmem⟩) ?_
  rw [target, ← lookup_of_nodup hnodup hp, ← hnum]
  rfl

theorem isOriginalRoot_iff (hv : v.Indexed env) (hnew : Unnamed v.heap) (hp : p ∈ v.inodes) :
    isOriginalRoot env (volumeNames entries v.heap) v p ↔ v.heap.number p = 2 := by
  rw [isOriginalRoot, hvol.recovered_eq hv hnew]
  constructor
  · intro h
    exact (newest_mem h).2
  · intro h
    rw [← h]
    exact lookup_of_nodup hnodup hp

theorem adopted_eq (hp : p ∈ v.inodes) (hdir : v.heap.isDir p) :
    ∃ d ∈ v.inodes, v.heap.isDir d ∧ v.heap.number d = (v.heap.obj p).parentDiNumber ∧
      adopted env v v.inodes p = some d := by
  obtain ⟨x, hx, hxdir, hnum⟩ := hvol.parents _ (List.mem_map_of_mem hp) hdir
  obtain ⟨d, hd, rfl⟩ := List.mem_map.mp hx
  have hfile : (v.heap.obj d).kind ≠ .file := fun h => by
    have hkind : (v.heap.obj d).kind = .dir := hxdir
    rw [h] at hkind
    cases hkind
  have hnewest : newest env v.heap v.inodes (v.heap.obj p).parentDiNumber = some d := by
    rw [← show v.heap.number d = (v.heap.obj p).parentDiNumber from hnum]
    exact lookup_of_nodup hnodup hd
  refine ⟨d, hd, hxdir, hnum, ?_⟩
  rw [adopted, if_pos hdir, hnewest]
  exact Option.filter_eq_some_iff.mpr ⟨rfl, decide_eq_true (fun h => hfile h.1)⟩

/-- **Where an inode is put, and what it is called.** -/
theorem placed (hdigits : ∀ n, legal (Nat.toDigits 10 n) = true)
    (hroot : legal "original_root".toList = true) (hv : v.Indexed env) (hnew : Unnamed v.heap)
    (hp : p ∈ v.inodes) :
    let names := volumeNames entries v.heap
    Component (pathLabel legal env names v p) ∧
      (claimant env names v p = some p ∧ v.heap.isDir p ∧
          pathOf (v.heap.number p) = [pathLabel legal env names v p] ∨
        (∃ d ∈ v.inodes, v.heap.isDir d ∧ claimant env names v p = some d ∧
          pathOf (v.heap.number p) = pathOf (v.heap.number d) ++ [pathLabel legal env names v p]) ∨
        claimant env names v p = none ∧
          pathOf (v.heap.number p) = [pathLabel legal env names v p]) := by
  intro names
  have hview : v.heap.view env p ∈ v.views env := List.mem_map_of_mem hp
  have hlegal : ∀ n, legal n = true → label env names v p = n →
      pathLabel legal env names v p = n := by
    intro n hn hlabel
    rw [pathLabel, hlabel, if_pos hn]
  have hun : ∀ h : lastEntry env names v p = none,
      claimant env names v p = adopted env v v.inodes p := by
    intro h
    have hmem : p ∈ parentClosure env v := by rw [hvol.parentClosure_eq hv]; exact hp
    rw [claimant_of_unlisted (unlisted_iff.mpr h) hmem, hvol.parentClosure_eq hv]
  cases hlast : lastEntry env names v p with
  | some c =>
    -- an entry of the directory that the path says
    obtain ⟨hd, hdir, hne, hname, hpath⟩ := hvol.lastEntry_some hv hnew hlast
    have hlabel : label env names v p = c.2.name := by
      rw [label, if_neg (mt (hvol.isOriginalRoot_iff hnodup hv hnew hp).mp hne), hlast,
        Option.elim_some, goodName, hname.good]
      exact if_neg Bool.false_ne_true
    rw [hlegal _ hname.legal hlabel]
    refine ⟨hname.component, Or.inr (Or.inl ⟨c.1, hd, hdir, ?_, hpath⟩)⟩
    rw [lastEntry] at hlast
    rw [claimant, hlast]
  | none =>
    obtain ⟨r, hr, hrdir, hrnum, hrparent, hrpath⟩ := hvol.root
    by_cases htwo : v.heap.number p = 2
    · -- the root is its own parent
      have hlabel : label env names v p = "original_root".toList :=
        if_pos ((hvol.isOriginalRoot_iff hnodup hv hnew hp).mpr htwo)
      obtain ⟨q, hq, rfl⟩ := List.mem_map.mp hr
      obtain rfl : p = q := List.inj_on_of_nodup_map hnodup hp hq (htwo.trans hrnum.symm)
      obtain ⟨d, hd, -, hnum, hadopt⟩ := hvol.adopted_eq hnodup hp hrdir
      obtain rfl : d = p := List.inj_on_of_nodup_map hnodup hd hp
        ((hnum.trans hrparent).trans htwo.symm)
      rw [hlegal _ hroot hlabel, htwo]
      exact ⟨component_original_root, Or.inl ⟨(hun hlast).trans hadopt, hrdir, hrpath⟩⟩
    · have hlabel : label env names v p = Nat.toDigits 10 (v.heap.number p) := by
        rw [label, if_neg (mt (hvol.isOriginalRoot_iff hnodup hv hnew hp).mp htwo), hlast]
        rfl
      have hpath : pathOf (v.heap.number p)
          = (if v.heap.isDir p then pathOf (v.heap.obj p).parentDiNumber else [])
            ++ [Nat.toDigits 10 (v.heap.number p)] :=
        hvol.unlisted _ hview htwo (hvol.lastEntry_none hnodup hv hnew hp hlast)
      rw [hlegal _ (hdigits _) hlabel]
      refine ⟨component_digits _, Or.inr ?_⟩
      by_cases hdir : v.heap.isDir p
      · obtain ⟨d, hd, hddir, hnum, hadopt⟩ := hvol.adopted_eq hnodup hp hdir
        refine Or.inl ⟨d, hd, hddir, (hun hlast).trans hadopt, ?_⟩
        rw [hpath, if_pos hdir, hnum]
      · refine Or.inr ⟨(hun hlast).trans (if_neg hdir), ?_⟩
        rw [hpath, if_neg hdir, List.nil_append]

/-- **The names of a volume are in order**, and its paths are the paths of the inodes. -/
theorem orderly (hdigits : ∀ n, legal (Nat.toDigits 10 n) = true)
    (hroot : legal "original_root".toList = true) (hv : v.Indexed env) (hnew : Unnamed v.heap) :
    Orderly legal env (volumeNames entries v.heap) v (fun p => pathOf (v.heap.number p)) := by
  have hplaced := fun p (hp : p ∈ v.inodes) => hvol.placed hnodup hdigits hroot hv hnew hp
  have htrail : ∀ n, ∀ p ∈ v.inodes, (pathOf (v.heap.number p)).length = n →
      Trail (claimant env (volumeNames entries v.heap) v)
        (pathLabel legal env (volumeNames entries v.heap) v) p (pathOf (v.heap.number p)) := by
    intro n
    induction n using Nat.strong_induction_on with
    | _ n ih =>
      intro p hp hlen
      obtain ⟨-, ⟨hself, -, hpath⟩ | ⟨d, hd, -, hlink, hpath⟩ | ⟨hnone, hpath⟩⟩ := hplaced p hp
      · rw [hpath]
        exact .self hself
      · have hlt : (pathOf (v.heap.number d)).length < n := by
          rw [← hlen, hpath, List.length_append]
          exact Nat.lt_succ_self _
        have hne : d ≠ p := by
          rintro rfl
          omega
        rw [hpath]
        exact .link hlink hne (ih _ hlt d hd rfl)
      · rw [hpath]
        exact .root hnone
  have hin := hvol.recovered_eq hv hnew
  refine ⟨fun p hp => ?_, fun p hp d hd => ?_, fun p hp => ?_, fun p hp q hq hplace hlabel => ?_⟩
  · rw [hin] at hp
    exact htrail _ p hp rfl
  · rw [hin] at hp
    obtain ⟨-, ⟨hself, hdir, -⟩ | ⟨d', -, hdir, hlink, -⟩ | ⟨hnone, -⟩⟩ := hplaced p hp
    · rw [hself] at hd
      rw [← Option.some.inj hd]
      exact hdir
    · rw [hlink] at hd
      rw [← Option.some.inj hd]
      exact hdir
    · rw [hnone] at hd
      cases hd
  · rw [hin] at hp
    exact (hplaced p hp).1
  · rw [hin] at hp hq
    have hpath := (htrail _ p hp rfl).congr hplace hlabel (htrail _ q hq rfl)
    exact List.inj_on_of_nodup_map hnodup hp hq
      (hvol.injective _ (List.mem_map_of_mem hp) _ (List.mem_map_of_mem hq) hpath)

end Volume

end Jfsrec
