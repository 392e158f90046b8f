import Jfsrec.Copies
import Jfsrec.Volume

/-!
# A volume with its last inode twice

A run that finds all stages done recovers a volume whose last inode stands in the vector twice.
The copy lies where its `idotdot` says and is called by its number, and what the last inode lists
lies in the copy.  Everything else has the path it has in the volume: `CopiedVolume.orderly`.
-/

namespace Jfsrec

open Lib InodeVector Recoverer

def copyPath (pathOf : ℕ → Path) (x : View) : Path :=
  (if x.kind = .dir then pathOf x.parentDiNumber else []) ++ [Nat.toDigits 10 x.diNumber]

/-- The path is that of an entry of the inode, or one below. -/
def UnderEntry (entries : ℕ → List DirEntry) (pathOf : ℕ → Path) (x : View) (path : Path) : Prop :=
  x.kind = .dir ∧ ∃ e ∈ entries x.diNumber, pathOf x.diNumber ++ [e.name.toUtf8] <+: path

instance (entries : ℕ → List DirEntry) (pathOf : ℕ → Path) (x : View) (path : Path) :
    Decidable (UnderEntry entries pathOf x path) := inferInstanceAs (Decidable (_ ∧ _))

/-- Where a path goes when the copy takes over what the inode lists. -/
def movedPath (entries : ℕ → List DirEntry) (pathOf : ℕ → Path) (x : View) (path : Path) : Path :=
  if UnderEntry entries pathOf x path then
    copyPath pathOf x ++ path.drop (pathOf x.diNumber).length
  else path

/-- There is room for the copy of `x`: its `idotdot` does not say what lies in it, and nothing lies
at its path. -/
structure RoomForCopy (l : List View) (entries : ℕ → List DirEntry) (pathOf : ℕ → Path)
    (x : View) : Prop where
  above : ¬ UnderEntry entries pathOf x (pathOf x.parentDiNumber)
  free : ∀ y ∈ l, pathOf y.diNumber ≠ copyPath pathOf x

variable {legal : List Char → Bool} {env : Env} {v : InodeVector} {entries : ℕ → List DirEntry}
  {pathOf : ℕ → Path} {front : List Ptr} {p q x y : Ptr}

structure CopiedVolume (legal : List Char → Bool) (env : Env) (v : InodeVector)
    (entries : ℕ → List DirEntry) (pathOf : ℕ → Path) (front : List Ptr) (p q : Ptr) : Prop where
  volume : Volume legal env.device ((withoutLast v).views env) entries pathOf
  numbers : ((withoutLast v).inodes.map v.heap.number).Nodup
  copied : Recoverer.Copied env (volumeNames entries v.heap) front p q v
  room : RoomForCopy ((withoutLast v).views env) entries pathOf (v.heap.view env p)
  indexed : v.Indexed env
  unnamed : Unnamed v.heap
  digits : ∀ n, legal (Nat.toDigits 10 n) = true
  rootName : legal "original_root".toList = true

def copiedPath (env : Env) (v : InodeVector) (entries : ℕ → List DirEntry) (pathOf : ℕ → Path)
    (p q : Ptr) (x : Ptr) : Path :=
  if x = q then copyPath pathOf (v.heap.view env p)
  else movedPath entries pathOf (v.heap.view env p) (pathOf (v.heap.number x))

namespace CopiedVolume

variable (h : CopiedVolume legal env v entries pathOf front p q)
include h

/-! ### Without the copy -/

theorem indexed₀ : (withoutLast v).Indexed env := h.copied.indexed h.indexed

theorem unnamed₀ : Unnamed (withoutLast v).heap := ⟨h.unnamed.unlinked, h.unnamed.unnamed⟩

theorem inodes₀ : (withoutLast v).inodes = front ++ [p] := h.copied.dropLast

theorem mem_p : p ∈ (withoutLast v).inodes := by
  rw [h.inodes₀]
  exact List.mem_append_right _ List.mem_cons_self

theorem recovered₀ :
    recovered env (volumeNames entries v.heap) (withoutLast v) = (withoutLast v).inodes :=
  h.volume.recovered_eq h.indexed₀ h.unnamed₀

theorem notMem_q : q ∉ (withoutLast v).inodes := by
  rw [← h.recovered₀]
  exact h.copied.notMem.2

theorem recovered_eq : recovered env (volumeNames entries v.heap) v = v.inodes := by
  obtain ⟨rest, hlist, hlist'⟩ := h.copied.echo_recovered
  rw [h.recovered₀, h.inodes₀] at hlist
  have hrest : rest = [] := by
    have hlen := congrArg List.length hlist
    simp only [List.length_append, List.length_cons, List.length_nil] at hlen
    exact List.length_eq_zero_iff.mp (by omega)
  rw [hlist', hrest, h.copied.inodes]

theorem mem_inodes : x ∈ v.inodes ↔ x ∈ (withoutLast v).inodes ∨ x = q := by
  rw [h.inodes₀, h.copied.inodes]
  simp only [List.mem_append, List.mem_cons, List.not_mem_nil, or_false, or_assoc]

theorem eq_of_pathOf (hx : x ∈ (withoutLast v).inodes) (hy : y ∈ (withoutLast v).inodes)
    (heq : pathOf (v.heap.number x) = pathOf (v.heap.number y)) : x = y :=
  List.inj_on_of_nodup_map h.numbers hx hy
    (h.volume.injective _ (List.mem_map_of_mem hx) _ (List.mem_map_of_mem hy) heq)

/-! ### What is moved -/

/-- **The entries of the last inode** are the last ones for what has their paths. -/
theorem listedByLast_iff (hx : x ∈ (withoutLast v).inodes) :
    (∃ c, lastEntry env (volumeNames entries v.heap) (withoutLast v) x = some c ∧ c.1 = p) ↔
      v.heap.isDir p ∧ ∃ e ∈ entries (v.heap.number p),
        pathOf (v.heap.number p) ++ [e.name.toUtf8] = pathOf (v.heap.number x) := by
  constructor
  · rintro ⟨c, hc, rfl⟩
    obtain ⟨-, hdir, -, -, hpath⟩ := h.volume.lastEntry_some h.indexed₀ h.unnamed₀ hc
    obtain ⟨d, -, hmem⟩ := List.mem_flatMap.mp (lastFor_mem hc).1
    obtain ⟨e, he, rfl⟩ := List.mem_map.mp hmem
    obtain ⟨-, e', he', rfl⟩ := mem_volumeNames.mp he
    exact ⟨hdir, e', he', hpath.symm⟩
  · rintro ⟨hdir, e, he, hpath⟩
    have hview : v.heap.view env p ∈ (withoutLast v).views env := List.mem_map_of_mem h.mem_p
    obtain ⟨y, hy, hnum, -, hypath⟩ := h.volume.listed _ hview hdir e he
    obtain ⟨z, hz, rfl⟩ := List.mem_map.mp hy
    obtain rfl : z = x := h.eq_of_pathOf hz hx (hypath.trans hpath)
    cases hc : lastEntry env (volumeNames entries v.heap) (withoutLast v) z with
    | none =>
      exact absurd hnum.symm
        (h.volume.lastEntry_none h.numbers h.indexed₀ h.unnamed₀ hz hc _ hview hdir e he)
    | some c =>
      obtain ⟨hc₁, -, -, -, hcpath⟩ := h.volume.lastEntry_some h.indexed₀ h.unnamed₀ hc
      refine ⟨c, rfl, h.eq_of_pathOf hc₁ h.mem_p ?_⟩
      exact (List.append_inj' (hcpath.symm.trans hpath.symm) rfl).1

/-- What the last inode lists goes to the copy, and everybody else stays where he is. -/
theorem moves : Moves (claimant env (volumeNames entries v.heap) (withoutLast v))
    (claimant env (volumeNames entries v.heap) v)
    (fun x => ∃ c, lastEntry env (volumeNames entries v.heap) (withoutLast v) x = some c ∧ c.1 = p)
    p q := by
  refine ⟨?_, fun x hxq hnot => ?_⟩
  · rintro x ⟨c, hc, rfl⟩
    have hx : x ∈ (withoutLast v).inodes := by
      rw [← h.recovered₀]
      exact (newest_mem (lastFor_mem hc).2).1
    have hxq : x ≠ q := fun heq => h.notMem_q (heq ▸ hx)
    obtain ⟨-, -, -, -, hpath⟩ := h.volume.lastEntry_some h.indexed₀ h.unnamed₀ hc
    refine ⟨?_, hxq, ?_, ?_⟩
    · rintro rfl
      have hlen := congrArg List.length hpath
      rw [List.length_append, List.length_singleton] at hlen
      omega
    · rw [lastEntry] at hc
      rw [claimant, hc]
    · rw [h.copied.claimant_eq hxq, hc]
      exact if_pos (decide_eq_true rfl)
  · rw [h.copied.claimant_eq hxq]
    refine if_neg (fun hany => hnot ?_)
    cases hc : lastEntry env (volumeNames entries v.heap) (withoutLast v) x with
    | none =>
      rw [hc] at hany
      cases hany
    | some c =>
      rw [hc] at hany
      exact ⟨c, rfl, of_decide_eq_true hany⟩

theorem orderly₀ : Orderly legal env (volumeNames entries v.heap) (withoutLast v)
    (fun x => pathOf (v.heap.number x)) :=
  h.volume.orderly h.numbers h.digits h.rootName h.indexed₀ h.unnamed₀

theorem closed₀ : ∀ x ∈ (withoutLast v).inodes, ∀ y,
    claimant env (volumeNames entries v.heap) (withoutLast v) x = some y →
      y ∈ (withoutLast v).inodes := by
  intro x _ y hy
  rw [← h.recovered₀]
  exact mem_of_claimant hy

theorem mem_of_reach (hx : x ∈ (withoutLast v).inodes)
    (hreach : Relation.ReflTransGen (fun x y =>
      claimant env (volumeNames entries v.heap) (withoutLast v) x = some y) x y) :
    y ∈ (withoutLast v).inodes := by
  induction hreach with
  | refl => exact hx
  | tail _ hlink ih => exact h.closed₀ _ ih _ hlink

theorem trail₀ (hx : x ∈ (withoutLast v).inodes) :
    Trail (claimant env (volumeNames entries v.heap) (withoutLast v))
      (pathLabel legal env (volumeNames entries v.heap) (withoutLast v)) x
      (pathOf (v.heap.number x)) :=
  h.orderly₀.paths x (by rw [h.recovered₀]; exact hx)

/-- **A path is moved exactly if its chain is.** -/
theorem through_iff (hx : x ∈ (withoutLast v).inodes) :
    Through (claimant env (volumeNames entries v.heap) (withoutLast v))
      (fun x => ∃ c, lastEntry env (volumeNames entries v.heap) (withoutLast v) x = some c ∧
        c.1 = p) x ↔
      UnderEntry entries pathOf (v.heap.view env p) (pathOf (v.heap.number x)) := by
  constructor
  · rintro ⟨m, hreach, hm⟩
    have hmem := h.mem_of_reach hx hreach
    obtain ⟨hdir, e, he, hpath⟩ := (h.listedByLast_iff hmem).mp hm
    have hpre := (h.trail₀ hx).prefix_of_reach hreach (h.trail₀ hmem)
    exact ⟨hdir, e, he, hpath ▸ hpre⟩
  · rintro ⟨hdir, e, he, hpre⟩
    obtain ⟨m, hm, hreach⟩ := (h.trail₀ hx).exists_above hpre (by simp)
    have hmem := h.mem_of_reach hx hreach
    exact ⟨m, hreach, (h.listedByLast_iff hmem).mpr
      ⟨hdir, e, he, hm.unique (h.trail₀ hmem)⟩⟩

theorem pathLabel_eq (x : Ptr) : pathLabel legal env (volumeNames entries v.heap) v x
    = pathLabel legal env (volumeNames entries v.heap) (withoutLast v) x := by
  rw [pathLabel, pathLabel, h.copied.label_eq]
  rfl

theorem pathLabel_copy : pathLabel legal env (volumeNames entries v.heap) v q
    = Nat.toDigits 10 (v.heap.number p) := by
  rw [pathLabel, h.copied.label_copy, if_pos (h.digits _)]

theorem trail_kept (hx : x ∈ (withoutLast v).inodes)
    (hkeep : ¬ UnderEntry entries pathOf (v.heap.view env p) (pathOf (v.heap.number x))) :
    Trail (claimant env (volumeNames entries v.heap) v)
      (pathLabel legal env (volumeNames entries v.heap) v) x (pathOf (v.heap.number x)) :=
  (h.trail₀ hx).kept h.moves h.closed₀ h.notMem_q
    (fun y _ => h.pathLabel_eq y) hx
    (mt (h.through_iff hx).mp hkeep)

/-- **The directory of the copy.** -/
theorem claimant_copy : claimant env (volumeNames entries v.heap) v q = none ∧
      ¬ v.heap.isDir p ∨
    ∃ d ∈ (withoutLast v).inodes, v.heap.isDir d ∧ v.heap.isDir p ∧
      v.heap.number d = (v.heap.obj p).parentDiNumber ∧
      claimant env (volumeNames entries v.heap) v q = some d := by
  rw [h.copied.claimant_copy, h.copied.parentDiNumber]
  by_cases hdir : v.heap.isDir p
  · obtain ⟨x, hx, hxdir, hnum⟩ :=
      h.volume.parents _ (List.mem_map_of_mem h.mem_p) hdir
    obtain ⟨d, hd, rfl⟩ := List.mem_map.mp hx
    have hclosure : newest env v.heap (parentClosure env v) = newest env v.heap
        (withoutLast v).inodes := by
      funext n
      rw [newest_echo h.copied.echo_parentClosure h.copied.view,
        h.volume.parentClosure_eq h.indexed₀]
    have hnewest : newest env v.heap (withoutLast v).inodes (v.heap.obj p).parentDiNumber
        = some d := by
      rw [← show v.heap.number d = (v.heap.obj p).parentDiNumber from hnum]
      exact lookup_of_nodup h.numbers hd
    refine Or.inr ⟨d, hd, hxdir, hdir, hnum, ?_⟩
    rw [if_pos (h.copied.isDir_iff.mpr hdir), hclosure, hnewest]
    refine Option.filter_eq_some_iff.mpr ⟨rfl, decide_eq_true (fun hfile => ?_)⟩
    have hkind : (v.heap.obj d).kind = .dir := hxdir
    rw [hfile] at hkind
    cases hkind
  · exact Or.inl ⟨if_neg (mt h.copied.isDir_iff.mp hdir), hdir⟩

theorem copyPath_cases :
    copyPath pathOf (v.heap.view env p) = [Nat.toDigits 10 (v.heap.number p)] ∧
        claimant env (volumeNames entries v.heap) v q = none ∨
      ∃ d ∈ (withoutLast v).inodes, v.heap.isDir d ∧
        v.heap.number d = (v.heap.obj p).parentDiNumber ∧
        copyPath pathOf (v.heap.view env p)
          = pathOf (v.heap.number d) ++ [Nat.toDigits 10 (v.heap.number p)] ∧
        claimant env (volumeNames entries v.heap) v q = some d := by
  rcases h.claimant_copy with ⟨hnone, hdir⟩ | ⟨d, hd, hddir, hdir, hnum, hclaim⟩
  · refine Or.inl ⟨?_, hnone⟩
    rw [copyPath, if_neg (show ¬ (v.heap.view env p).kind = .dir from hdir)]
    rfl
  · refine Or.inr ⟨d, hd, hddir, hnum, ?_, hclaim⟩
    rw [copyPath, if_pos (show (v.heap.view env p).kind = .dir from hdir), hnum]
    rfl

theorem trail_copy : Trail (claimant env (volumeNames entries v.heap) v)
    (pathLabel legal env (volumeNames entries v.heap) v) q
    (copyPath pathOf (v.heap.view env p)) := by
  rcases h.copyPath_cases with ⟨hpath, hnone⟩ | ⟨d, hd, -, hnum, hpath, hclaim⟩
  · rw [hpath, ← h.pathLabel_copy]
    exact .root hnone
  · rw [hpath, ← h.pathLabel_copy]
    refine .link hclaim (fun heq => h.notMem_q (heq ▸ hd)) (h.trail_kept hd ?_)
    rw [hnum]
    exact h.room.above

theorem trail_moved (hx : x ∈ (withoutLast v).inodes)
    (hunder : UnderEntry entries pathOf (v.heap.view env p) (pathOf (v.heap.number x))) :
    ∃ rest, rest ≠ [] ∧ pathOf (v.heap.number x) = pathOf (v.heap.number p) ++ rest ∧
      Trail (claimant env (volumeNames entries v.heap) v)
        (pathLabel legal env (volumeNames entries v.heap) v) x
        (copyPath pathOf (v.heap.view env p) ++ rest) :=
  Trail.moved h.moves h.closed₀ h.notMem_q (fun y _ => h.pathLabel_eq y) (h.trail₀ h.mem_p)
    h.trail_copy (h.trail₀ hx) hx ((h.through_iff hx).mpr hunder)

omit h in
theorem copiedPath_copy : copiedPath env v entries pathOf p q q
    = copyPath pathOf (v.heap.view env p) := if_pos rfl

omit h in
theorem copiedPath_kept (hxq : x ≠ q)
    (hkeep : ¬ UnderEntry entries pathOf (v.heap.view env p) (pathOf (v.heap.number x))) :
    copiedPath env v entries pathOf p q x = pathOf (v.heap.number x) := by
  rw [copiedPath, if_neg hxq, movedPath, if_neg hkeep]

omit h in
theorem copiedPath_moved {rest : Path} (hxq : x ≠ q)
    (hunder : UnderEntry entries pathOf (v.heap.view env p) (pathOf (v.heap.number x)))
    (hpath : pathOf (v.heap.number x) = pathOf (v.heap.number p) ++ rest) :
    copiedPath env v entries pathOf p q x = copyPath pathOf (v.heap.view env p) ++ rest := by
  rw [copiedPath, if_neg hxq, movedPath, if_pos hunder, hpath]
  congr 1
  exact List.drop_left

/-- The inodes: the copy, those that are moved with it, and those that are where they were. -/
theorem place_cases (hx : x ∈ v.inodes) :
    x = q ∨ x ∈ (withoutLast v).inodes ∧
      ((∃ rest, rest ≠ [] ∧ pathOf (v.heap.number x) = pathOf (v.heap.number p) ++ rest ∧
          copiedPath env v entries pathOf p q x = copyPath pathOf (v.heap.view env p) ++ rest) ∨
        copiedPath env v entries pathOf p q x = pathOf (v.heap.number x)) := by
  rcases h.mem_inodes.mp hx with hx | rfl
  · have hxq : x ≠ q := fun heq => h.notMem_q (heq ▸ hx)
    refine Or.inr ⟨hx, ?_⟩
    by_cases hunder : UnderEntry entries pathOf (v.heap.view env p) (pathOf (v.heap.number x))
    · obtain ⟨rest, hne, hpath, -⟩ := h.trail_moved hx hunder
      exact Or.inl ⟨rest, hne, hpath, copiedPath_moved hxq hunder hpath⟩
    · exact Or.inr (copiedPath_kept hxq hunder)
  · exact Or.inl rfl

/-- **All paths of a volume with its last inode twice.** -/
theorem trail (hx : x ∈ v.inodes) : Trail (claimant env (volumeNames entries v.heap) v)
    (pathLabel legal env (volumeNames entries v.heap) v) x
    (copiedPath env v entries pathOf p q x) := by
  rcases h.mem_inodes.mp hx with hx | rfl
  · have hxq : x ≠ q := fun heq => h.notMem_q (heq ▸ hx)
    by_cases hunder : UnderEntry entries pathOf (v.heap.view env p) (pathOf (v.heap.number x))
    · obtain ⟨rest, -, hpath, htrail⟩ := h.trail_moved hx hunder
      rw [copiedPath_moved hxq hunder hpath]
      exact htrail
    · rw [copiedPath_kept hxq hunder]
      exact h.trail_kept hx hunder
  · rw [copiedPath_copy]
    exact h.trail_copy

theorem not_below_copy {rest : Path} (hx : x ∈ (withoutLast v).inodes) :
    pathOf (v.heap.number x) ≠ copyPath pathOf (v.heap.view env p) ++ rest := by
  intro heq
  have hne : copyPath pathOf (v.heap.view env p) ≠ [] := by
    rw [copyPath]
    exact List.append_ne_nil_of_right_ne_nil _ (List.cons_ne_nil _ _)
  obtain ⟨m, hm, hreach⟩ := (h.trail₀ hx).exists_above (heq ▸ List.prefix_append _ rest) hne
  have hmem := h.mem_of_reach hx hreach
  exact h.room.free _ (List.mem_map_of_mem hmem) ((h.trail₀ hmem).unique hm)

/-- **No two inodes have the same path.** -/
theorem injective (hx : x ∈ v.inodes) (hy : y ∈ v.inodes)
    (heq : copiedPath env v entries pathOf p q x = copiedPath env v entries pathOf p q y) :
    x = y := by
  have hcopy : ∀ {z : Ptr}, z ∈ v.inodes →
      copiedPath env v entries pathOf p q z = copyPath pathOf (v.heap.view env p) → z = q := by
    intro z hz hpath
    rcases h.place_cases hz with rfl | ⟨hmem, ⟨rest, hne, -, hmoved⟩ | hkept⟩
    · rfl
    · rw [hmoved] at hpath
      exact absurd (List.append_right_eq_self.mp hpath) hne
    · exact absurd ((hkept.symm.trans hpath).trans (List.append_nil _).symm)
        (h.not_below_copy hmem)
  rcases h.place_cases hx with rfl | ⟨hxm, hxp⟩
  · rw [copiedPath_copy] at heq
    exact (hcopy hy heq.symm).symm
  · rcases h.place_cases hy with rfl | ⟨hym, hyp⟩
    · rw [copiedPath_copy] at heq
      exact hcopy hx heq
    · refine h.eq_of_pathOf hxm hym ?_
      rcases hxp with ⟨rest, -, hxpath, hxc⟩ | hxc <;>
        rcases hyp with ⟨rest', -, hypath, hyc⟩ | hyc <;> rw [hxc, hyc] at heq
      · rw [hxpath, hypath, List.append_cancel_left heq]
      · exact absurd heq.symm (h.not_below_copy hym)
      · exact absurd heq (h.not_below_copy hxm)
      · exact heq

/-- **The names are in order** also with the last inode twice. -/
theorem orderly : Orderly legal env (volumeNames entries v.heap) v
    (copiedPath env v entries pathOf p q) := by
  have ho := h.orderly₀
  refine ⟨fun x hx => ?_, fun x hx d hd => ?_, fun x hx => ?_, fun x hx y hy hplace hlabel => ?_⟩
  · rw [h.recovered_eq] at hx
    exact h.trail hx
  · rw [h.recovered_eq] at hx
    rcases h.mem_inodes.mp hx with hx | rfl
    · by_cases hM : ∃ c, lastEntry env (volumeNames entries v.heap) (withoutLast v) x = some c ∧
          c.1 = p
      · obtain ⟨hdir, -⟩ := (h.listedByLast_iff hx).mp hM
        rw [(h.moves.moved x hM).2.2.2] at hd
        rw [← Option.some.inj hd]
        exact h.copied.isDir_iff.mpr hdir
      · have hxq : x ≠ q := fun heq => h.notMem_q (heq ▸ hx)
        rw [h.moves.kept x hxq hM] at hd
        exact ho.dirs x (by rw [h.recovered₀]; exact hx) d hd
    · rcases h.claimant_copy with ⟨hnone, -⟩ | ⟨d', -, hdir, -, -, hclaim⟩
      · rw [hnone] at hd
        cases hd
      · rw [hclaim] at hd
        rw [← Option.some.inj hd]
        exact hdir
  · rw [h.recovered_eq] at hx
    rcases h.mem_inodes.mp hx with hx | rfl
    · rw [h.pathLabel_eq]
      exact ho.components x (by rw [h.recovered₀]; exact hx)
    · rw [h.pathLabel_copy]
      exact component_digits _
  · rw [h.recovered_eq] at hx hy
    exact h.injective hx hy ((h.trail hx).congr hplace hlabel (h.trail hy))

theorem nothingToReadmit : NothingToReadmit (volumeNames entries v.heap) v := by
  have hn : NothingToReadmit (volumeNames entries v.heap) (withoutLast v) :=
    h.volume.nothingToReadmit
  have hsub : (withoutLast v).inodes.map v.heap.number ⊆ v.inodes.map v.heap.number :=
    List.map_subset _ (List.dropLast_subset _)
  intro c hc d hd
  rcases h.mem_inodes.mp hc with hc | rfl
  · exact (hn c hc d hd).imp_left (fun hmem => hsub hmem)
  · rw [h.copied.dotdot, listed, h.copied.names] at hd
    exact (hn p h.mem_p d hd).imp_left (fun hmem => hsub hmem)

end CopiedVolume

end Jfsrec
