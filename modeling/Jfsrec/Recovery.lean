import Jfsrec.PrioPartition
import Jfsrec.Reruns
import Jfsrec.Roots

/-!
# The whole recovery

`Recoverer::recover` finds the parents and the names, puts the inodes into a queue if there are
options for that, creates the directories and recovers one inode after another.  Each of them
asks for its full path, and that may replace names.

Where the names of the inodes are in order, `Orderly`, the paths are the trails of the names, and
the loops over the inodes do what the loops over paths do, `recoverQueue_eq`.  `recover_iff` says
when a run goes through and what it leaves.
-/

namespace Jfsrec

open Lib InodeVector

/-- When a run comes to an inode, in `recover_dirtree` and in `recover_iterative`, and how much
`stdio` writes early. -/
structure Moment where
  created : ℤ
  now : ℤ
  early : ℕ

/-- A file without extents is saved empty. -/
def Dinode.emptyFile (d : Dinode) : OutFile := ⟨SparseFile.empty, d.diMtime.tvSec⟩

namespace FileInode

variable {env : Env} {fuel early byteOffset : ℕ} {now : ℤ} {d : Dinode} {xads : List Xad}
  {buffer c : Buffer} {f : OutFile} {u : Unit}

/-- The saved file: its length, the bytes of its extents below `di_size` and where `stdio` writes
them behind it, zeros everywhere else, and its time. -/
structure Restored (env : Env) (d : Dinode) (xads : List Xad) (early : ℕ) (f : OutFile) :
    Prop where
  time : f.writeTime = d.diMtime.tvSec
  size : (f.content.size : ℤ) = savedSize env xads early d.diSize
  bytes : ∀ k : ℕ, k < d.diSize ∨ Late env xads early k → ∀ x ∈ xads, Contains env x k →
    f.content.byte k = env.device.data (sourcePos env x k)
  zeros : ∀ k : ℕ, (k < d.diSize → ∀ x ∈ xads, ¬ Contains env x k) → ¬ Late env xads early k →
    f.content.byte k = 0

theorem file_of_recover {s : Saved} {ops : List FileOp}
    (hdinode : env.getDinode byteOffset = .ret d)
    (hsave : saveFile env fuel early (.ret ()) byteOffset buffer = some s)
    (hret : s.outcome = .ret ()) (hops : s.ops = some ops)
    (hr : recover env fuel early .quiet now byteOffset none buffer = some ⟨.ret u, c, some f⟩) :
    f = ⟨SparseFile.empty.run ops, d.diMtime.tvSec⟩ := by
  have hskip : skips env .quiet byteOffset none = .ret false := rfl
  have hcall : FsErrors.quiet.call .savePath = .ret () := rfl
  have htimes : Inode.setTimes env .quiet byteOffset = .ret d.diMtime := by
    rw [Inode.setTimes, hdinode]
    rfl
  rw [recover, tryRecover, hskip, hcall] at hr
  dsimp only at hr
  rw [hsave, Option.map_some, Option.map_some, hret] at hr
  dsimp only at hr
  rw [htimes] at hr
  obtain ⟨_, _, hfile⟩ := Recovered.mk.inj (Option.some.inj hr)
  rw [written, hops] at hfile
  exact (Option.some.inj hfile).symm

/-- **A file that was not there is restored**, if its extents are as they should be. -/
theorem restored_of_recover (hdinode : env.getDinode byteOffset = .ret d)
    (hroot : 2 < Xtpage.nextindex (dinodeMemory env d) rootPos) (hdiSize : 0 ≤ d.diSize)
    (hxads : collectXads env fuel d = some (.ret xads)) (hplaced : WellPlaced env xads)
    (hr : recover env fuel early .quiet now byteOffset none buffer = some ⟨.ret u, c, some f⟩) :
    Restored env d xads early f := by
  obtain rfl := file_of_recover hdinode (saveFile_ret hdinode hroot hxads hplaced.whole) rfl rfl hr
  exact ⟨rfl, size_writeExtents (writeExtents_ret hplaced.whole buffer) early hdiSize,
    fun k hput x hx hk => hplaced.byte_saved hdiSize buffer hx hk hput,
    fun k hnone hlate => hplaced.byte_saved_zero hdiSize buffer hnone hlate⟩

theorem emptyFile_of_recover (hdinode : env.getDinode byteOffset = .ret d)
    (hroot : Xtpage.nextindex (dinodeMemory env d) rootPos ≤ 2)
    (hr : recover env fuel early .quiet now byteOffset none buffer = some ⟨.ret u, c, some f⟩) :
    f = d.emptyFile :=
  file_of_recover hdinode (saveFile_of_no_entries hdinode hroot) rfl rfl hr

end FileInode

namespace Recoverer

def turnOf (clock : Ptr → Moment) (h : Heap) (p : Ptr) (path : Path) : Turn :=
  ⟨h.obj p, path, (clock p).created, (clock p).now, (clock p).early⟩

def createDirRound (legal : List Char → Bool) (fuel : ℕ) (clock : Ptr → Moment)
    (s : Heap × FileSystem) (p : Ptr) : Option (Heap × FileSystem) :=
  if s.1.isDir p then
    (fullPath legal fuel p s.1).bind (fun r =>
      ((turnOf clock s.1 p r.1).createDir s.2).map (fun fs => (r.2, fs)))
  else some s

/-- One round of `recover_iterative`.  `recover` asks for the path when it begins; what it asks
again later is answered the same. -/
def recoverRound (env : Env) (legal : List Char → Bool) (fuel : ℕ) (clock : Ptr → Moment)
    (s : Heap × FileSystem × Buffer) (p : Ptr) : Option (Heap × FileSystem × Buffer) :=
  if s.1.isDir p ∨ (s.1.obj p).kind = .file then
    (fullPath legal fuel p s.1).bind (fun r =>
      ((turnOf clock s.1 p r.1).recover env fuel s.2).map (fun t => (r.2, t)))
  else some s

/-- `recover_dirtree` and `recover_iterative`, on the inodes of a queue. -/
def recoverQueue (env : Env) (legal : List Char → Bool) (fuel : ℕ) (clock : Ptr → Moment)
    (now : ℤ) (queue : List Ptr) (h : Heap) (fs : FileSystem) (buffer : Buffer) :
    Option FileSystem :=
  (fs.createDirectory now []).bind (fun fs =>
    (queue.foldlM (createDirRound legal fuel clock) (h, fs)).bind (fun s =>
      (queue.foldlM (recoverRound env legal fuel clock) (s.1, s.2, buffer)).map (fun s => s.2.1)))

def recoveryOrder (legal : List Char → Bool) (fuel : ℕ) (o : PrioOptions) (v : InodeVector) :
    Option (List Ptr × Heap) :=
  match o with
  | ⟨none, none, none⟩ => some (v.inodes, v.heap)
  | o => prioQueueBranches legal fuel o v

/-- What `recover` does when the parents and the names are found. -/
def recoverAssociated (env : Env) (legal : List Char → Bool) (fuel : ℕ) (o : PrioOptions)
    (clock : Ptr → Moment) (now : ℤ) (v : InodeVector) (fs : FileSystem) (buffer : Buffer) :
    Option FileSystem :=
  (findRoots fuel v []).bind (fun _ =>
    (recoveryOrder legal fuel o v).bind (fun r =>
      recoverQueue env legal fuel clock now r.1 r.2 fs buffer))

/-- `recover`; `none` when it does not return. -/
def recover (env : Env) (legal : List Char → Bool) (fuel : ℕ) (names : Ptr → List InodeName)
    (o : PrioOptions) (clock : Ptr → Moment) (now : ℤ) (v : InodeVector) (fs : FileSystem)
    (buffer : Buffer) : Option FileSystem :=
  (findDirectoryParents env v).bind (fun v =>
    (findFileParentsAndNames env names v).bind (fun v =>
      recoverAssociated env legal fuel o clock now v fs buffer))

variable {env : Env} {legal : List Char → Bool} {fuel : ℕ} {names : Ptr → List InodeName}
  {o : PrioOptions} {clock : Ptr → Moment} {now : ℤ} {u v : InodeVector} {h h' k : Heap}
  {fs fs' : FileSystem} {b : Buffer} {p : Ptr} {path : Path} {pathOf : Ptr → Path}
  {queue : List Ptr}

/-! ### What `get_full_path` leaves alone -/

def Renamed (h h' : Heap) : Prop := ∀ p, ∃ name, h'.obj p = { h.obj p with name := name }

theorem Renamed.refl : Renamed h h := fun _ => ⟨_, rfl⟩

theorem Renamed.trans (hr : Renamed h h') (hr' : Renamed h' k) : Renamed h k := by
  intro p
  obtain ⟨name, heq⟩ := hr p
  obtain ⟨name', heq'⟩ := hr' p
  exact ⟨name', by rw [heq', heq]⟩

theorem renamed_setName (h : Heap) (p : Ptr) (n : List Char) : Renamed h (h.setName p n) := by
  intro q
  rw [Heap.setName, Heap.set_obj]
  split
  · rename_i hq
    exact ⟨n, by rw [hq]⟩
  · exact ⟨_, rfl⟩

structure SameInodes (h h' : Heap) : Prop where
  kind : ∀ p, (h'.obj p).kind = (h.obj p).kind
  byteOffset : ∀ p, (h'.obj p).byteOffset = (h.obj p).byteOffset

theorem SameInodes.refl : SameInodes h h := ⟨fun _ => rfl, fun _ => rfl⟩

theorem SameInodes.trans (hs : SameInodes h h') (hs' : SameInodes h' k) : SameInodes h k :=
  ⟨fun p => (hs'.kind p).trans (hs.kind p), fun p => (hs'.byteOffset p).trans (hs.byteOffset p)⟩

theorem Renamed.same (hr : Renamed h h') : SameInodes h h' := by
  refine ⟨fun p => ?_, fun p => ?_⟩
  · obtain ⟨name, heq⟩ := hr p
    rw [heq]
  · obtain ⟨name, heq⟩ := hr p
    rw [heq]

theorem sameInodes_of_frame (hf : Heap.Frame env h h') : SameInodes h h' :=
  ⟨hf.kind, fun p => congrArg View.byteOffset (congrFun hf.view p)⟩

/-- Calls that change names only. -/
def Renames (f : Ptr → Heap → Option (Option Path × Heap)) : Prop :=
  ∀ p h r h', f p h = some (r, h') → Renamed h h'

theorem renames_fullPathOnce {f : Ptr → Heap → Option (Option Path × Heap)} (hf : Renames f) :
    Renames (fullPathOnce legal f) := by
  intro p h r h' hr
  rw [fullPathOnce] at hr
  split at hr
  · rw [← (Prod.mk.inj (Option.some.inj hr)).2]
    exact .refl
  · split at hr
    · rename_i hcall
      rw [← (Prod.mk.inj (Option.some.inj hr)).2]
      exact hf _ _ _ _ hcall
    · exact hf _ _ _ _ hr

theorem renames_getFullPath (legal : List Char → Bool) (fuel : ℕ) :
    Renames (getFullPath legal fuel) := by
  induction fuel with
  | zero =>
    intro p h r h' hr
    cases hr
  | succ fuel ih =>
    intro p h r h' hr
    rw [getFullPath] at hr
    split at hr
    · rename_i k hcall
      have hfirst := renames_fullPathOnce ih _ _ _ _ hcall
      have hsecond := renames_fullPathOnce ih _ _ _ _ hr
      exact (hfirst.trans (renamed_setName k p _)).trans hsecond
    · exact renames_fullPathOnce ih _ _ _ _ hr

/-- The heaps that calls of `get_full_path` make of `h`. -/
structure Asks (legal : List Char → Bool) (h h' : Heap) : Prop where
  showing : Showing legal h.parentOf (shown legal h) h'
  renamed : Renamed h h'

theorem Asks.refl : Asks legal h h := ⟨⟨rfl, rfl⟩, .refl⟩

/-- **A path is answered whenever it is asked for**, and always the same. -/
theorem exists_fuel_asks (hdigits : ∀ n, legal (Nat.toDigits 10 n) = true)
    (hp : HasPath legal u p path) :
    ∃ fuel, ∀ n, fuel ≤ n → ReturnsPath legal n (Asks legal u.heap) p path := by
  obtain ⟨fuel, hfuel⟩ := exists_fuel_returnsPath hdigits hp
  refine ⟨fuel, fun n hn h hS => ?_⟩
  obtain ⟨h', hr, hS'⟩ := hfuel n hn h hS.showing
  refine ⟨h', hr, hS', hS.renamed.trans ?_⟩
  rw [fullPath] at hr
  split at hr
  · rename_i hcall
    rw [← (Prod.mk.inj (Option.some.inj hr)).2]
    exact renames_getFullPath legal n _ _ _ _ hcall
  · cases hr

/-! ### The loops, with known paths -/

theorem turnOf_createDir (hr : SameInodes h h') (fs : FileSystem) :
    (turnOf clock h' p path).createDir fs = (turnOf clock h p path).createDir fs := by
  unfold Turn.createDir turnOf
  dsimp only
  rw [hr.kind]

theorem turnOf_recover (hr : SameInodes h h') (s : FileSystem × Buffer) :
    (turnOf clock h' p path).recover env fuel s = (turnOf clock h p path).recover env fuel s := by
  unfold Turn.recover turnOf
  dsimp only
  rw [hr.kind]
  cases hkind : (h.obj p).kind with
  | dir =>
    unfold DirInode.recoverAt
    dsimp only
    rw [hr.byteOffset]
  | file =>
    unfold FileInode.recoverAt
    dsimp only
    rw [hr.byteOffset]
  | _ => rfl

variable {g : Heap}

theorem createDirRound_eq (clock : Ptr → Moment) (hg : SameInodes g h)
    (hp : h.isDir p → ReturnsPath legal fuel (Asks legal h) p path) (hk : Asks legal h k)
    (fs : FileSystem) : ∃ k', Asks legal h k' ∧
      createDirRound legal fuel clock (k, fs) p
        = ((turnOf clock g p path).createDir fs).map (fun fs => (k', fs)) := by
  have hsame := hg.trans hk.renamed.same
  have hdir : k.isDir p ↔ g.isDir p := by
    rw [Heap.isDir, Heap.isDir, hsame.kind]
  unfold createDirRound
  by_cases hd : g.isDir p
  · obtain ⟨k', hr, hk'⟩ := hp ((hg.kind p).trans hd) k hk
    refine ⟨k', hk', ?_⟩
    rw [if_pos (hdir.mpr hd)]
    dsimp only
    rw [hr, Option.bind_some, turnOf_createDir hsame]
  · refine ⟨k, hk, ?_⟩
    have hnone : (turnOf clock g p path).createDir fs = some fs := by
      unfold Turn.createDir
      split
      · rename_i hkind
        exact absurd hkind hd
      · rfl
    rw [if_neg (mt hdir.mp hd), hnone]
    rfl

theorem recoverRound_eq (env : Env) (clock : Ptr → Moment) (hg : SameInodes g h)
    (hp : ReturnsPath legal fuel (Asks legal h) p path) (hk : Asks legal h k)
    (s : FileSystem × Buffer) : ∃ k', Asks legal h k' ∧
      recoverRound env legal fuel clock (k, s) p
        = ((turnOf clock g p path).recover env fuel s).map (fun t => (k', t)) := by
  have hsame := hg.trans hk.renamed.same
  have hkinds : (k.isDir p ∨ (k.obj p).kind = .file) ↔
      (g.isDir p ∨ (g.obj p).kind = .file) := by
    rw [Heap.isDir, Heap.isDir, hsame.kind]
  unfold recoverRound
  by_cases hd : g.isDir p ∨ (g.obj p).kind = .file
  · obtain ⟨k', hr, hk'⟩ := hp k hk
    refine ⟨k', hk', ?_⟩
    rw [if_pos (hkinds.mpr hd)]
    dsimp only
    rw [hr, Option.bind_some, turnOf_recover hsame]
  · obtain ⟨hdir, hfile⟩ := not_or.mp hd
    refine ⟨k, hk, ?_⟩
    have hnone : (turnOf clock g p path).recover env fuel s = some s := by
      unfold Turn.recover
      split
      · rename_i hkind
        exact absurd hkind hdir
      · rename_i hkind
        exact absurd hkind hfile
      · rfl
    rw [if_neg (mt hkinds.mp hd), hnone]
    rfl

def turnsOf (clock : Ptr → Moment) (h : Heap) (pathOf : Ptr → Path) (queue : List Ptr) :
    List Turn :=
  queue.map (fun p => turnOf clock h p (pathOf p))

/-- **The loops over inodes do what the loops over paths do.** -/
theorem recoverQueue_eq (hg : SameInodes g h)
    (hl : ∀ x ∈ queue, ReturnsPath legal fuel (Asks legal h) x (pathOf x))
    (hk : Asks legal h k) (now : ℤ) (fs : FileSystem) (b : Buffer) :
    recoverQueue env legal fuel clock now queue k fs b
      = recoverTree env fuel now (turnsOf clock g pathOf queue) fs b := by
  unfold recoverQueue recoverTree makeDirtree
  rw [Option.bind_assoc]
  cases fs.createDirectory now [] with
  | none => rfl
  | some fs₁ =>
    rw [Option.bind_some, Option.bind_some]
    obtain ⟨k₁, hk₁, h₁⟩ := foldlM_carry
      (fun p hp k fs hk => createDirRound_eq clock hg (fun _ => hl p hp) hk fs) hk (b := fs₁)
    rw [h₁]
    show ((List.foldlM Turn.createDir fs₁ (turnsOf clock g pathOf queue)).map _).bind _ = _
    cases (turnsOf clock g pathOf queue).foldlM Turn.createDir fs₁ with
    | none => rfl
    | some fs₂ =>
      obtain ⟨k₂, _, h₂⟩ := foldlM_carry
        (fun p hp k s hk => recoverRound_eq env clock hg (hl p hp) hk s) hk₁ (b := (fs₂, b))
      rw [Option.map_some, Option.bind_some, Option.bind_some, h₂, Option.map_map]
      rfl

/-! ### Where the names are in order -/

/-- The parents are directories and all paths end; the names are components, and tell apart what
is in one directory. -/
structure Orderly (legal : List Char → Bool) (env : Env) (names : Ptr → List InodeName)
    (v : InodeVector) (pathOf : Ptr → Path) : Prop where
  paths : ∀ x ∈ recovered env names v,
    Trail (claimant env names v) (pathLabel legal env names v) x (pathOf x)
  dirs : ∀ x ∈ recovered env names v, ∀ p, claimant env names v x = some p → v.heap.isDir p
  components : ∀ x ∈ recovered env names v, Component (pathLabel legal env names v x)
  apart : ∀ x ∈ recovered env names v, ∀ y ∈ recovered env names v,
    placeOf env names v x = placeOf env names v y →
      pathLabel legal env names v x = pathLabel legal env names v y → x = y

def chosen (env : Env) (names : Ptr → List InodeName) (o : PrioOptions) (v : InodeVector)
    (pathOf : Ptr → Path) : List Ptr :=
  keptBy o pathOf (recovered env names v)

/-- What lies in an excluded directory is excluded. -/
def ExcludesBelow (o : PrioOptions) : Prop :=
  ∀ path name, found o.exclude path = true → found o.exclude (path ++ [name]) = true

theorem mem_chosen {x : Ptr} : x ∈ chosen env names o v pathOf ↔
    x ∈ recovered env names v ∧ found o.exclude (pathOf x) = false := by
  rw [chosen, keptBy, List.mem_filter, Bool.not_eq_true']

theorem Orderly.injective (ho : Orderly legal env names v pathOf) {x y : Ptr}
    (hx : x ∈ recovered env names v) (hy : y ∈ recovered env names v)
    (heq : pathOf x = pathOf y) : x = y := by
  have hclosed : ∀ x ∈ recovered env names v, ∀ p, claimant env names v x = some p →
      p ∈ recovered env names v := fun _ _ _ hc => mem_of_claimant hc
  exact Trail.injective hclosed ho.apart (pathOf x) hx hy (ho.paths x hx) (heq ▸ ho.paths y hy)

/-- **A file is not where a directory is, nor above one.** -/
theorem Orderly.not_prefix (ho : Orderly legal env names v pathOf) {x d : Ptr}
    (hx : x ∈ recovered env names v) (hd : d ∈ recovered env names v) (hdir : v.heap.isDir d)
    (hfile : (v.heap.obj x).kind = .file) : ¬ pathOf x <+: pathOf d := by
  intro hpre
  obtain ⟨a, ha, hreach⟩ := (ho.paths d hd).exists_above hpre (ho.paths x hx).ne_nil
  have hall : a ∈ recovered env names v ∧ v.heap.isDir a := by
    clear ha
    induction hreach with
    | refl => exact ⟨hd, hdir⟩
    | tail _ hlink ih => exact ⟨mem_of_claimant hlink, ho.dirs _ ih.1 _ hlink⟩
  have heq : pathOf a = pathOf x := (ho.paths a hall.1).unique ha
  obtain rfl := ho.injective hall.1 hx heq
  exact absurd (hfile.symm.trans hall.2) (by decide)

/-- **The directory of an inode** is the output directory, or the path of its claimant. -/
theorem Orderly.dropLast (ho : Orderly legal env names v pathOf) {x : Ptr}
    (hx : x ∈ recovered env names v) :
    (pathOf x).dropLast = [] ∨ ∃ d ∈ recovered env names v, v.heap.isDir d ∧
      pathOf x = pathOf d ++ [pathLabel legal env names v x] := by
  obtain ⟨init, hpath, ⟨_, rfl⟩ | ⟨d, hplace, hinit⟩⟩ := (ho.paths x hx).last
  · rw [hpath]
    exact Or.inl rfl
  · have hclaim : claimant env names v x = some d := (Option.filter_eq_some_iff.mp hplace).1
    have hd := mem_of_claimant hclaim
    obtain rfl := (ho.paths d hd).unique hinit
    exact Or.inr ⟨d, hd, ho.dirs x hx d hclaim, hpath⟩

theorem inTree_turnsOf {q : Path} : InTree (turnsOf clock h pathOf queue) q ↔
    q = [] ∨ ∃ d ∈ queue, h.isDir d ∧ q <+: pathOf d := by
  refine or_congr_right ⟨?_, ?_⟩
  · rintro ⟨t, ht, hdir, hpre⟩
    obtain ⟨d, hd, rfl⟩ := List.mem_map.mp ht
    exact ⟨d, hd, hdir, hpre⟩
  · rintro ⟨d, hd, hdir, hpre⟩
    exact ⟨_, List.mem_map_of_mem hd, hdir, hpre⟩

theorem Orderly.nodup_path (ho : Orderly legal env names v pathOf) (hnodup : v.inodes.Nodup)
    (hqueue : queue.Perm (chosen env names o v pathOf)) :
    ((turnsOf clock h pathOf queue).map Turn.path).Nodup := by
  have hmem : ∀ x ∈ queue, x ∈ recovered env names v :=
    fun x hx => (mem_chosen.mp (hqueue.mem_iff.mp hx)).1
  have hnd : queue.Nodup := hqueue.nodup_iff.mpr ((nodup_recovered hnodup).filter _)
  rw [turnsOf, List.map_map]
  exact hnd.map_on (fun x hx y hy heq => ho.injective (hmem x hx) (hmem y hy) heq)

/-- **What is recovered lies as it should.** -/
theorem Orderly.layout (ho : Orderly legal env names v pathOf) (hbelow : ExcludesBelow o)
    (hnodup : v.inodes.Nodup) (hqueue : queue.Perm (chosen env names o v pathOf)) :
    Layout (turnsOf clock v.heap pathOf queue) := by
  have hmem : ∀ x ∈ queue, x ∈ recovered env names v ∧ found o.exclude (pathOf x) = false :=
    fun x hx => mem_chosen.mp (hqueue.mem_iff.mp hx)
  refine ⟨ho.nodup_path hnodup hqueue, fun t ht hfile htree => ?_, fun t ht hfile => ?_⟩
  · obtain ⟨x, hx, rfl⟩ := List.mem_map.mp ht
    rcases inTree_turnsOf.mp htree with hroot | ⟨d, hd, hdir, hpre⟩
    · exact (ho.paths x (hmem x hx).1).ne_nil hroot
    · exact ho.not_prefix (hmem x hx).1 (hmem d hd).1 hdir hfile hpre
  · obtain ⟨x, hx, rfl⟩ := List.mem_map.mp ht
    obtain ⟨hxr, hxo⟩ := hmem x hx
    refine inTree_turnsOf.mpr ?_
    rcases ho.dropLast hxr with hroot | ⟨d, hd, hdir, hpath⟩
    · exact Or.inl hroot
    · -- the directory is not excluded, as the file is not
      refine Or.inr ⟨d, hqueue.mem_iff.mpr (mem_chosen.mpr ⟨hd, ?_⟩), hdir, ?_⟩
      · rw [Bool.eq_false_iff]
        intro hex
        have hin := hbelow _ (pathLabel legal env names v x) hex
        rw [← hpath, hxo] at hin
        cases hin
      · show (pathOf x).dropLast <+: pathOf d
        rw [hpath, List.dropLast_concat]

/-! ### The run -/

/-- What an inode meets at its path. -/
def worldOf (clock : Ptr → Moment) (fs : FileSystem) (p : Ptr) (path : Path) : World :=
  ⟨.quiet, fs.file path, (clock p).now, (clock p).early⟩

theorem canRecover_iff : CanRecover env fuel fs (turnOf clock h p path) ↔
    (h.obj p).Returns env (worldOf clock fs p path) fuel := by
  have hfile : ∀ t : Turn, t.ino.kind ≠ .dir → t.ino.kind ≠ .file → CanRecover env fuel fs t :=
    fun t hd hf => ⟨fun hdir => absurd hdir hd, fun hfile => absurd hfile hf⟩
  unfold Inode.Returns
  cases hkind : (h.obj p).kind with
  | dir =>
    refine ⟨fun hc => ?_, fun hret => ⟨fun _ => ?_, fun hf => ?_⟩⟩
    · obtain ⟨time, htime⟩ := hc.dir hkind
      exact Inode.isRet_setTimes.mp (Outcome.isRet_iff.mpr ⟨time, htime⟩)
    · exact Outcome.isRet_iff.mp (Inode.isRet_setTimes.mpr hret)
    · exact absurd (hkind.symm.trans hf) (by decide)
  | file =>
    refine ⟨fun hc hskip _ => hc.file hkind hskip, fun hret => ⟨fun hd => ?_, fun _ hskip => ?_⟩⟩
    · exact absurd (hkind.symm.trans hd) (by decide)
    · exact hret hskip rfl
  | unallocated => simp [hfile, turnOf, hkind]
  | symlink => simp [hfile, turnOf, hkind]
  | special => simp [hfile, turnOf, hkind]

/-- What a run leaves of the inodes `l`: their directories, and of each file what `recover` makes
of what was at its path.  If there was none, that is the file itself, or an empty one if it has no
extents.  No other file is touched. -/
structure Leaves (env : Env) (fuel : ℕ) (clock : Ptr → Moment) (h : Heap) (pathOf : Ptr → Path)
    (l : List Ptr) (fs fs' : FileSystem) : Prop where
  dirs : ∀ x ∈ l, h.isDir x → fs'.IsDir (pathOf x)
  files : ∀ x ∈ l, (h.obj x).kind = .file → ∃ b c f,
    FileInode.recover env fuel (clock x).early .quiet (clock x).now (h.obj x).byteOffset
      (fs.file (pathOf x)) b = some ⟨.ret (), c, some f⟩ ∧ fs'.file (pathOf x) = some f
  restored : ∀ x ∈ l, (h.obj x).kind = .file → fs.file (pathOf x) = none →
    ∀ d xads, env.getDinode (h.obj x).byteOffset = .ret d →
      2 < Xtpage.nextindex (FileInode.dinodeMemory env d) FileInode.rootPos → 0 ≤ d.diSize →
      FileInode.collectXads env fuel d = some (.ret xads) → FileInode.WellPlaced env xads →
      ∃ f, fs'.file (pathOf x) = some f ∧ FileInode.Restored env d xads (clock x).early f
  emptied : ∀ x ∈ l, (h.obj x).kind = .file → fs.file (pathOf x) = none →
    ∀ d, env.getDinode (h.obj x).byteOffset = .ret d →
      Xtpage.nextindex (FileInode.dinodeMemory env d) FileInode.rootPos ≤ 2 →
      fs'.file (pathOf x) = some d.emptyFile
  others : ∀ q, (∀ x ∈ l, (h.obj x).kind = .file → pathOf x ≠ q) → fs'.file q = fs.file q

theorem leaves_of_recoverTree (hlayout : Layout (turnsOf clock h pathOf queue))
    (hrun : recoverTree env fuel now (turnsOf clock h pathOf queue) fs b = some fs') :
    Leaves env fuel clock h pathOf queue fs fs' := by
  obtain ⟨hdirs, hrec, hothers⟩ := recoverTree_recovers hlayout hrun
  have hfiles : ∀ x ∈ queue, (h.obj x).kind = .file → ∃ b c f,
      FileInode.recover env fuel (clock x).early .quiet (clock x).now (h.obj x).byteOffset
        (fs.file (pathOf x)) b = some ⟨.ret (), c, some f⟩ ∧ fs'.file (pathOf x) = some f :=
    fun x hx hfile => (hrec _ (List.mem_map_of_mem hx)).file hfile
  refine ⟨fun x hx hdir => ?_, hfiles,
    fun x hx hfile hnone d xads hdinode hroot hsize hxads hplaced => ?_,
    fun x hx hfile hnone d hdinode hroot => ?_, fun q hq => hothers q (fun t ht hfile => ?_)⟩
  · exact hdirs _ (inTree_turnsOf.mpr (Or.inr ⟨x, hx, hdir, List.prefix_rfl⟩))
  · obtain ⟨_, _, f, hrec, hf⟩ := hfiles x hx hfile
    rw [hnone] at hrec
    exact ⟨f, hf, FileInode.restored_of_recover hdinode hroot hsize hxads hplaced hrec⟩
  · obtain ⟨_, _, f, hrec, hf⟩ := hfiles x hx hfile
    rw [hnone] at hrec
    rw [hf, FileInode.emptyFile_of_recover hdinode hroot hrec]
  · obtain ⟨x, hx, rfl⟩ := List.mem_map.mp ht
    exact hq x hx hfile

theorem Leaves.of_perm {l l' : List Ptr} (hl : Leaves env fuel clock h pathOf l fs fs')
    (hperm : l.Perm l') : Leaves env fuel clock h pathOf l' fs fs' :=
  ⟨fun x hx => hl.dirs x (hperm.mem_iff.mpr hx), fun x hx => hl.files x (hperm.mem_iff.mpr hx),
    fun x hx => hl.restored x (hperm.mem_iff.mpr hx),
    fun x hx => hl.emptied x (hperm.mem_iff.mpr hx),
    fun q hq => hl.others q (fun x hx => hq x (hperm.mem_iff.mp hx))⟩

theorem exists_fuel_order (hasked : ∃ fuel, ∀ n, fuel ≤ n → ∀ x ∈ u.inodes,
      ReturnsPath legal n (Asks legal u.heap) x (pathOf x)) (o : PrioOptions) :
    ∃ fuel, ∀ n, fuel ≤ n → ∃ k, Asks legal u.heap k ∧
      recoveryOrder legal n o u = some (ordered o pathOf (keptBy o pathOf u.inodes), k) := by
  obtain ⟨fuel, hfuel⟩ := hasked
  refine ⟨fuel, fun n hn => ?_⟩
  unfold recoveryOrder
  split
  · refine ⟨u.heap, .refl, ?_⟩
    simp [ordered, keptBy, found]
  · obtain ⟨k, hq, hk⟩ :=
      generatePrioQueue_spec (o := o) (fun _ => hfuel n hn) (Asks.refl (h := u.heap))
    refine ⟨k, hk, ?_⟩
    rw [prioQueueBranches_eq, hq, queueOf_eq]

theorem exists_fuel_ordered (hdigits : ∀ n, legal (Nat.toDigits 10 n) = true)
    (hv : v.Indexed env) (hnew : Unnamed v.heap) (ho : Orderly legal env names v pathOf)
    (o : PrioOptions) : ∃ w u, findDirectoryParents env v = some w ∧
      findFileParentsAndNames env names w = some u ∧ SameInodes v.heap u.heap ∧
      ∃ fuel, ∀ n, fuel ≤ n → (∃ roots, findRoots n u [] = some roots) ∧
        (∃ h', Asks legal u.heap h' ∧ recoveryOrder legal n o u
          = some (ordered o pathOf (chosen env names o v pathOf), h')) ∧
        ∀ x ∈ ordered o pathOf (chosen env names o v pathOf),
          ReturnsPath legal n (Asks legal u.heap) x (pathOf x) := by
  obtain ⟨w, u, hw, hu, hframe, hin, hparent, hname⟩ := named_recovered names hv hnew
  have hclosed : ParentsInside u := by
    intro x _ p hp
    rw [hparent] at hp
    rw [hin]
    exact mem_of_claimant hp
  have htrail : ∀ x ∈ u.inodes, Trail u.heap.parentOf (shown legal u.heap) x (pathOf x) := by
    intro x hx
    rw [hparent]
    refine (ho.paths x (hin ▸ hx)).congr_label (l := u.inodes) (hparent ▸ hclosed) ?_ hx
    intro y hy
    have hnum : (u.heap.obj y).diNumber = v.heap.number y := congrFun hframe.number y
    rw [shown, pathLabel, hname y hy, hnum]
  have hacyclic : Acyclic u :=
    (forall_ends_iff hclosed).mp (fun x hx => (htrail x hx).ends)
  have hasked := exists_fuel_forall
    (fun x hx => exists_fuel_asks hdigits ((hasPath_iff hdigits).mpr (htrail x hx)))
  obtain ⟨m, hm⟩ := hasked
  obtain ⟨k, hk⟩ := exists_fuel_order ⟨m, hm⟩ o
  refine ⟨w, u, hw, hu, sameInodes_of_frame hframe, max (max m k) (u.inodes.length + 1),
    fun n hn => ?_⟩
  obtain ⟨roots, hroots, _⟩ := mem_findRoots hclosed hacyclic (show u.inodes.length < n by omega)
  obtain ⟨h', hh', horder⟩ := hk n (by omega)
  rw [hin] at hm horder
  refine ⟨⟨roots, hroots⟩, ⟨h', hh', horder⟩, fun x hx => hm n (by omega) x ?_⟩
  exact (mem_chosen.mp ((ordered_perm o pathOf _).mem_iff.mp hx)).1

/-- **`recover` is `recoverTree` on the inodes that are not excluded**, in the order of the
queue. -/
theorem exists_fuel_recover (hdigits : ∀ n, legal (Nat.toDigits 10 n) = true)
    (hv : v.Indexed env) (hnew : Unnamed v.heap) (ho : Orderly legal env names v pathOf)
    (o : PrioOptions) : ∃ fuel, ∀ n, fuel ≤ n → ∀ clock now fs b,
      recover env legal n names o clock now v fs b = recoverTree env n now
        (turnsOf clock v.heap pathOf (ordered o pathOf (chosen env names o v pathOf))) fs b := by
  obtain ⟨w, u, hw, hu, hsame, fuel, hfuel⟩ := exists_fuel_ordered hdigits hv hnew ho o
  refine ⟨fuel, fun n hn clock now fs b => ?_⟩
  obtain ⟨⟨roots, hroots⟩, ⟨h', hh', horder⟩, hpaths⟩ := hfuel n hn
  rw [recover, hw, Option.bind_some, hu, Option.bind_some, recoverAssociated, hroots,
    Option.bind_some, horder, Option.bind_some]
  exact recoverQueue_eq hsame hpaths hh' now fs b

/-- Where no file is in the way, the loops go through exactly if every inode that is not excluded
lets nothing out, and then they leave them all. -/
theorem exists_fuel_recoverTree (hnodup : v.inodes.Nodup) (ho : Orderly legal env names v pathOf)
    (hbelow : ExcludesBelow o)
    (hclear : ∀ q, (q = [] ∨ ∃ d ∈ chosen env names o v pathOf, v.heap.isDir d ∧ q <+: pathOf d) →
      fs.file q = none) (clock : Ptr → Moment) (now : ℤ) (b : Buffer) :
    ∃ fuel, ∀ n, fuel ≤ n →
      ((∃ fs', recoverTree env n now (turnsOf clock v.heap pathOf
          (ordered o pathOf (chosen env names o v pathOf))) fs b = some fs') ↔
        ∀ x ∈ chosen env names o v pathOf,
          (v.heap.obj x).Passes env (worldOf clock fs x (pathOf x))) ∧
      ∀ fs', recoverTree env n now (turnsOf clock v.heap pathOf
          (ordered o pathOf (chosen env names o v pathOf))) fs b = some fs' →
        Leaves env n clock v.heap pathOf (chosen env names o v pathOf) fs fs' := by
  have hperm := ordered_perm o pathOf (chosen env names o v pathOf)
  have hlayout : Layout (turnsOf clock v.heap pathOf
      (ordered o pathOf (chosen env names o v pathOf))) := ho.layout hbelow hnodup hperm
  -- enough fuel for all files that can be recovered
  obtain ⟨fuel, hfuel⟩ : ∃ fuel, ∀ n, fuel ≤ n → ∀ x ∈ chosen env names o v pathOf,
      (v.heap.obj x).Passes env (worldOf clock fs x (pathOf x)) →
        (v.heap.obj x).Returns env (worldOf clock fs x (pathOf x)) n := by
    refine exists_fuel_forall (fun x _ => ?_)
    by_cases hpass : (v.heap.obj x).Passes env (worldOf clock fs x (pathOf x))
    · obtain ⟨_, fuel, hret⟩ := Inode.passes_iff.mp hpass
      exact ⟨fuel, fun n hn _ => hret.mono hn⟩
    · exact ⟨0, fun n _ h => absurd h hpass⟩
  refine ⟨fuel, fun n hn => ⟨?_,
    fun fs' hrun => (leaves_of_recoverTree hlayout hrun).of_perm hperm⟩⟩
  rw [exists_recoverTree_iff hlayout]
  · constructor
    · intro hcan x hx
      have hret := canRecover_iff.mp (hcan _ (List.mem_map_of_mem (hperm.mem_iff.mpr hx)))
      exact Inode.passes_iff.mpr ⟨Inode.createDir_eq_ret_iff.mpr (fun _ => ⟨rfl, rfl⟩), n, hret⟩
    · intro hpass t ht
      obtain ⟨x, hx, rfl⟩ := List.mem_map.mp ht
      have hx' := hperm.mem_iff.mp hx
      exact canRecover_iff.mpr (hfuel n hn x hx' (hpass x hx'))
  · intro q hq
    refine hclear q ((inTree_turnsOf.mp hq).imp_right ?_)
    rintro ⟨d, hd, hdir, hpre⟩
    exact ⟨d, hperm.mem_iff.mp hd, hdir, hpre⟩

/-- **Where the names are in order and no file is in the way, a run goes through exactly if every
inode that is not excluded lets nothing out**, and then it leaves them all. -/
theorem recover_iff (hdigits : ∀ n, legal (Nat.toDigits 10 n) = true) (hv : v.Indexed env)
    (hnew : Unnamed v.heap) (hnodup : v.inodes.Nodup) (ho : Orderly legal env names v pathOf)
    (hbelow : ExcludesBelow o)
    (hclear : ∀ q, (q = [] ∨ ∃ d ∈ chosen env names o v pathOf, v.heap.isDir d ∧ q <+: pathOf d) →
      fs.file q = none) (clock : Ptr → Moment) (now : ℤ) (b : Buffer) :
    ∃ fuel, ∀ n, fuel ≤ n →
      ((∃ fs', recover env legal n names o clock now v fs b = some fs') ↔
        ∀ x ∈ chosen env names o v pathOf,
          (v.heap.obj x).Passes env (worldOf clock fs x (pathOf x))) ∧
      ∀ fs', recover env legal n names o clock now v fs b = some fs' →
        Leaves env n clock v.heap pathOf (chosen env names o v pathOf) fs fs' := by
  obtain ⟨m, hm⟩ := exists_fuel_recover hdigits hv hnew ho o
  obtain ⟨k, hk⟩ := exists_fuel_recoverTree hnodup ho hbelow hclear clock now b
  refine ⟨max m k, fun n hn => ?_⟩
  rw [hm n (by omega)]
  exact hk n (by omega)

/-! ### An example -/

/-- Directory 3, which lists inode 4 as `a`: a file of 1300 bytes with a block, a hole and a
block. -/
def heldFile : Env :=
  oneEntry [(261, 1), (262, 0x61), (536, 0x14), (537, 5), (752, 2), (754, 4), (776, 1), (780, 2),
    (788, 2), (792, 1), (796, 3), (1024, 7), (1536, 8)]

def heldPath (p : Ptr) : Path := if p = 1 then [['3']] else [['3'], ['a']]

theorem mem_recovered_heldFile {x : Ptr}
    (hx : x ∈ recovered heldFile (decoded plainEntries) (bothInodes heldFile)) :
    x = 1 ∨ x = 2 := by
  have hlist : recovered heldFile (decoded plainEntries) (bothInodes heldFile) = [1, 2] := by
    decide +kernel
  rw [hlist] at hx
  exact List.mem_pair.mp hx

theorem orderly_heldFile : Orderly (fun _ => true) heldFile (decoded plainEntries)
    (bothInodes heldFile) heldPath := by
  have hroot : claimant heldFile (decoded plainEntries) (bothInodes heldFile) 1 = none := by
    decide +kernel
  have hlink : claimant heldFile (decoded plainEntries) (bothInodes heldFile) 2 = some 1 := by
    decide +kernel
  have hone : pathLabel (fun _ => true) heldFile (decoded plainEntries) (bothInodes heldFile) 1
      = ['3'] := by decide +kernel
  have htwo : pathLabel (fun _ => true) heldFile (decoded plainEntries) (bothInodes heldFile) 2
      = ['a'] := by decide +kernel
  refine ⟨fun x hx => ?_, fun x hx p hp => ?_, fun x hx => ?_, fun x hx y hy hplace _ => ?_⟩
  · have htrail : Trail (claimant heldFile (decoded plainEntries) (bothInodes heldFile))
        (pathLabel (fun _ => true) heldFile (decoded plainEntries) (bothInodes heldFile)) 1
        [pathLabel (fun _ => true) heldFile (decoded plainEntries) (bothInodes heldFile) 1] :=
      .root hroot
    rcases mem_recovered_heldFile hx with rfl | rfl
    · rw [hone] at htrail
      exact htrail
    · have htrail₂ := htrail.link hlink (by decide)
      rw [hone, htwo] at htrail₂
      exact htrail₂
  · rcases mem_recovered_heldFile hx with rfl | rfl
    · rw [hroot] at hp
      cases hp
    · rw [hlink] at hp
      obtain rfl := Option.some.inj hp
      decide +kernel
  · rcases mem_recovered_heldFile hx with rfl | rfl
    · rw [hone]
      decide
    · rw [htwo]
      decide
  · rw [placeOf, placeOf] at hplace
    rcases mem_recovered_heldFile hx with rfl | rfl
    · rcases mem_recovered_heldFile hy with rfl | rfl
      · rfl
      · rw [place_of_none hroot, place_of_link hlink (by decide)] at hplace
        cases hplace
    · rcases mem_recovered_heldFile hy with rfl | rfl
      · rw [place_of_none hroot, place_of_link hlink (by decide)] at hplace
        cases hplace
      · rfl

theorem wellPlaced_heldFile : FileInode.WellPlaced heldFile FileInode.holedXads :=
  ⟨fun x hx => ⟨(FileInode.wellPlaced_holedXads.whole x hx).1,
    (FileInode.wellPlaced_holedXads.whole x hx).2⟩, FileInode.wellPlaced_holedXads.2⟩

theorem getDinode_heldFile : heldFile.getDinode 512 = .ret (heldFile.readDinode 512) :=
  Env.getDinode_of_slot ⟨by decide, by decide⟩

theorem passes_heldFile {x : Ptr} (hx : x = 1 ∨ x = 2) (w : World) (hw : w.errors = .quiet) :
    ((bothInodes heldFile).heap.obj x).Passes heldFile w := by
  refine Inode.passes_iff.mpr ⟨Inode.createDir_eq_ret_iff.mpr (fun _ => ?_), 0, ?_⟩
  · rw [hw]
    exact ⟨rfl, rfl⟩
  · unfold Inode.Returns
    rw [hw]
    rcases hx with rfl | rfl
    · have hkind : ((bothInodes heldFile).heap.obj 1).kind = .dir := by decide
      have hoff : ((bothInodes heldFile).heap.obj 1).byteOffset = 0 := by decide
      rw [hkind, hoff]
      exact ⟨⟨_, rfl⟩, rfl, rfl⟩
    · have hkind : ((bothInodes heldFile).heap.obj 2).kind = .file := by decide
      have hoff : ((bothInodes heldFile).heap.obj 2).byteOffset = 512 := by decide
      rw [hkind, hoff]
      intro _ _ d hd _
      obtain rfl := Outcome.ret.inj (getDinode_heldFile.symm.trans hd)
      decide

/-- The run makes the directory, and the file in it with both blocks and the hole, but longer than
1300 bytes, as of the last block only 100 bytes are written early. -/
theorem recover_iff_heldFile : ∃ fuel, ∀ n, fuel ≤ n → ∃ fs' f,
    recover heldFile (fun _ => true) n (decoded plainEntries) ⟨none, none, none⟩
      (fun _ => ⟨1, 1, 100⟩) 1 (bothInodes heldFile) nothing (fun _ => 9) = some fs' ∧
      fs'.IsDir [['3']] ∧ fs'.file [['3'], ['a']] = some f ∧ f.content.size = 1536 ∧
      f.content.byte 0 = 7 ∧ f.content.byte 600 = 0 ∧ f.content.byte 1024 = 8 := by
  have hchosen : chosen heldFile (decoded plainEntries) ⟨none, none, none⟩ (bothInodes heldFile)
      heldPath = [1, 2] := by decide +kernel
  have hempty : ∀ q, nothing.file q = none := fun _ => rfl
  obtain ⟨fuel, hfuel⟩ := recover_iff (o := ⟨none, none, none⟩) (fun _ => rfl)
    ((sound_bothInodes heldFile).indexed (by decide) (by decide)) (unnamed_bothInodes heldFile)
    (by decide) orderly_heldFile (fun _ _ h => Bool.noConfusion h) (fun q _ => hempty q)
    (fun _ => ⟨1, 1, 100⟩) 1 (fun _ => 9)
  refine ⟨fuel, fun n hn => ?_⟩
  obtain ⟨hiff, hleaves⟩ := hfuel n hn
  rw [hchosen] at hiff hleaves
  obtain ⟨fs', hrun⟩ := hiff.mpr (fun x hx => passes_heldFile (List.mem_pair.mp hx) _ rfl)
  have h := hleaves fs' hrun
  have hkind : ((bothInodes heldFile).heap.obj 2).kind = .file := by decide
  have hoff : ((bothInodes heldFile).heap.obj 2).byteOffset = 512 := by decide
  have hxads : FileInode.collectXads heldFile n (heldFile.readDinode 512)
      = some (.ret FileInode.holedXads) := by
    cases n <;> rfl
  obtain ⟨f, hf, hrestored⟩ := h.restored 2 (by decide) hkind rfl (heldFile.readDinode 512) _
    (by rw [hoff]; exact getDinode_heldFile) (by decide) (by decide) hxads wellPlaced_heldFile
  refine ⟨fs', f, hrun, h.dirs 1 (by decide) (by decide), hf, ?_, ?_, ?_, ?_⟩
  · exact Int.ofNat_inj.mp (hrestored.size.trans (by decide))
  · exact hrestored.bytes 0 (Or.inl (by decide)) _ (List.mem_pair.mpr (Or.inl rfl)) (by decide)
  · exact hrestored.zeros 600 (fun _ => by decide) (by decide)
  · exact hrestored.bytes 1024 (Or.inl (by decide)) _ (List.mem_pair.mpr (Or.inr rfl)) (by decide)

end Recoverer

end Jfsrec
