import Jfsrec.Lib.Trails
import Jfsrec.Names

/-!
# Shared paths

Whether two inodes are written to the same place.  A path is the trail of the
names along the parents, where a name that the path library refuses gives way to
the number of the inode.  Where the names are single components, joined paths are
equal only if the trails are, and so two inodes share a path exactly if they share
a directory and a name.  Entries of one directory have different names, but not
all inodes in a directory are named by its entries: `distinctPaths_iff`.
-/

namespace Jfsrec

open Lib InodeVector

namespace Recoverer

variable {env : Env} {names : Ptr → List InodeName} {legal : List Char → Bool}
  {v w u : InodeVector} {h : Heap} {p : Ptr} {f : Ptr → Option Ptr} {lab : Ptr → List Char}
  {out : List Char}

/-! ### Paths as trails -/

def shown (legal : List Char → Bool) (h : Heap) (x : Ptr) : List Char :=
  if legal (h.obj x).name then (h.obj x).name else Nat.toDigits 10 (h.obj x).diNumber

theorem shown_setName (hdigits : ∀ n, legal (Nat.toDigits 10 n) = true)
    (hp : ¬ legal (h.obj p).name = true) :
    shown legal (h.setName p (Nat.toDigits 10 (h.obj p).diNumber)) = shown legal h := by
  funext x
  rw [shown, shown, Heap.setName, Heap.set_obj]
  by_cases hx : x = p
  · rw [if_pos hx, hx, if_pos (hdigits _), if_neg hp]
  · rw [if_neg hx]

/-- The heaps in which the parents are `f` and the names that show are `lab`. -/
structure Showing (legal : List Char → Bool) (f : Ptr → Option Ptr) (lab : Ptr → List Char)
    (h : Heap) : Prop where
  parentOf : h.parentOf = f
  shown : shown legal h = lab

def Kept (legal : List Char → Bool) (h h' : Heap) : Prop :=
  ∀ x, legal (h.obj x).name = true → legal (h'.obj x).name = true

theorem kept_setName (hdigits : ∀ n, legal (Nat.toDigits 10 n) = true) (n : ℕ) :
    Kept legal h (h.setName p (Nat.toDigits 10 n)) := by
  intro x hx
  rw [Heap.setName, Heap.set_obj]
  split
  · exact hdigits n
  · exact hx

/-- What calls of `get_full_path` return, and that nothing changes that shows. -/
def Trailing (legal : List Char → Bool) (f : Ptr → Option Ptr) (lab : Ptr → List Char)
    (path : Ptr → Heap → Option (Option Path × Heap)) : Prop :=
  ∀ p (h : Heap), Showing legal f lab h → ∀ r h', path p h = some (r, h') →
    Showing legal f lab h' ∧ Kept legal h h' ∧ ∃ ns, r = some ns ∧ Trail f lab p ns

theorem lab_of_legal (hs : Showing legal f lab h) (hl : legal (h.obj p).name = true) :
    (h.obj p).name = lab p := by
  rw [← hs.shown, Recoverer.shown, if_pos hl]

theorem fullPathOnce_trail {path : Ptr → Heap → Option (Option Path × Heap)}
    (hpath : Trailing legal f lab path) (hs : Showing legal f lab h) {r : Option Path} {h' : Heap}
    (hr : fullPathOnce legal path p h = some (r, h')) :
    Showing legal f lab h' ∧ Kept legal h h' ∧
      (legal (h'.obj p).name = true → ∃ ns, r = some ns ∧ Trail f lab p ns) ∧
      (¬ legal (h'.obj p).name = true → r = none) := by
  unfold fullPathOnce at hr
  split at hr
  · rename_i hroot
    obtain ⟨rfl, rfl⟩ := Prod.mk.inj (Option.some.inj hr)
    refine ⟨hs, fun _ hx => hx, fun hl => ⟨_, if_pos hl, ?_⟩, fun hl => if_neg hl⟩
    rw [lab_of_legal hs hl]
    rw [Heap.root_iff, hs.parentOf] at hroot
    rcases hroot with hnone | hself
    · exact .root hnone
    · exact .self hself
  · rename_i hroot
    obtain ⟨hn, hself⟩ := not_or.mp hroot
    cases hcall : path (h.obj p).parent h with
    | none => rw [hcall] at hr; cases hr
    | some res =>
      obtain ⟨res, k⟩ := res
      obtain ⟨hk, hkept, ns, rfl, htrail⟩ := hpath _ h hs res k hcall
      rw [hcall] at hr
      obtain ⟨rfl, rfl⟩ := Prod.mk.inj (Option.some.inj hr)
      refine ⟨hk, hkept, fun hl => ⟨_, if_pos hl, ?_⟩, fun hl => if_neg hl⟩
      rw [lab_of_legal hk hl]
      refine .link ?_ hself htrail
      rw [← hs.parentOf]
      exact if_neg hn

/-- **A path is the trail of the names that show.** -/
theorem getFullPath_trail (hdigits : ∀ n, legal (Nat.toDigits 10 n) = true) (fuel : ℕ) :
    Trailing legal f lab (getFullPath legal fuel) := by
  induction fuel with
  | zero => intro p h _ r h' hr; cases hr
  | succ fuel ih =>
    intro p h hs r h' hr
    rw [getFullPath] at hr
    cases hcall : fullPathOnce legal (getFullPath legal fuel) p h with
    | none => rw [hcall] at hr; cases hr
    | some res =>
      obtain ⟨res, k⟩ := res
      obtain ⟨hk, hkept, hsome, hnone⟩ := fullPathOnce_trail ih hs hcall
      rw [hcall] at hr
      by_cases hl : legal (k.obj p).name = true
      · obtain ⟨ns, rfl, htrail⟩ := hsome hl
        obtain ⟨rfl, rfl⟩ := Prod.mk.inj (Option.some.inj hr)
        exact ⟨hk, hkept, ns, rfl, htrail⟩
      · -- the second try has the number for a name
        obtain rfl := hnone hl
        have hset : Showing legal f lab (k.setName p (Nat.toDigits 10 (k.obj p).diNumber)) :=
          ⟨by rw [parentOf_setName, hk.parentOf], by rw [shown_setName hdigits hl, hk.shown]⟩
        obtain ⟨hs', hkept', hsome', _⟩ := fullPathOnce_trail ih hset hr
        have hname : legal ((k.setName p (Nat.toDigits 10 (k.obj p).diNumber)).obj p).name
            = true := by
          rw [Heap.setName, Heap.set_obj, if_pos rfl]
          exact hdigits _
        obtain ⟨ns, rfl, htrail⟩ := hsome' (hkept' p hname)
        refine ⟨hs', fun x hx => hkept' x (kept_setName hdigits _ x (hkept x hx)), ns, rfl, htrail⟩

/-! ### Inodes that share a path -/

/-- `get_full_path` of `x` returns `ns`. -/
def HasPath (legal : List Char → Bool) (u : InodeVector) (x : Ptr) (ns : Path) : Prop :=
  ∃ fuel h, getFullPath legal fuel x u.heap = some (some ns, h)

/-- After both functions every inode has a path, and no two have the same when the names are
joined to the output directory. -/
def DistinctPaths (legal : List Char → Bool) (out : List Char) (env : Env)
    (names : Ptr → List InodeName) (v : InodeVector) : Prop :=
  ∃ w u, findDirectoryParents env v = some w ∧ findFileParentsAndNames env names w = some u ∧
    (∀ x ∈ u.inodes, ∃ ns, HasPath legal u x ns) ∧
    ∀ x ∈ u.inodes, ∀ y ∈ u.inodes, ∀ ns ms, HasPath legal u x ns → HasPath legal u y ms →
      ns.foldl join out = ms.foldl join out → x = y

/-- The names in the listings of `l` are single components, and different in one directory. -/
structure NamesApart (names : Ptr → List InodeName) (l : List Ptr) : Prop where
  components : ∀ c ∈ l, ∀ e ∈ names c, Component e.name
  nodup : ∀ c ∈ l, ((names c).map InodeName.name).Nodup

def pathLabel (legal : List Char → Bool) (env : Env) (names : Ptr → List InodeName)
    (v : InodeVector) (x : Ptr) : List Char :=
  if legal (label env names v x) then label env names v x
  else Nat.toDigits 10 (v.heap.number x)

def placeOf (env : Env) (names : Ptr → List InodeName) (v : InodeVector) (x : Ptr) : Option Ptr :=
  place (claimant env names v) x

/-- The inode has its name from an entry of the directory it is written to. -/
def NamedInPlace (legal : List Char → Bool) (env : Env) (names : Ptr → List InodeName)
    (v : InodeVector) (x : Ptr) : Prop :=
  ∃ c, lastEntry env names v x = some c ∧ placeOf env names v x = some c.1 ∧
    pathLabel legal env names v x = c.2.name

theorem hasPath_iff (hdigits : ∀ n, legal (Nat.toDigits 10 n) = true) {x : Ptr} {ns : Path} :
    HasPath legal u x ns ↔ Trail u.heap.parentOf (shown legal u.heap) x ns := by
  constructor
  · rintro ⟨fuel, h, hr⟩
    obtain ⟨_, _, ns', hns, htrail⟩ := getFullPath_trail hdigits fuel x u.heap ⟨rfl, rfl⟩ _ h hr
    rwa [Option.some.inj hns]
  · intro htrail
    have hends : Ends u.heap.parentOf x := by
      induction htrail with
      | root h => exact .root h
      | self h => exact .self h
      | link h _ _ ih => exact .link h ih
    obtain ⟨fuel, hfuel⟩ := returns_of_ends legal hends
    obtain ⟨r, h', hr, _⟩ := hfuel u.heap rfl
    obtain ⟨_, _, ns', rfl, htrail'⟩ := getFullPath_trail hdigits fuel x u.heap ⟨rfl, rfl⟩ r h' hr
    rw [htrail.unique htrail']
    exact ⟨fuel, h', hr⟩

theorem mem_of_lastEntry {x : Ptr} {c : Ptr × InodeName} (hc : lastEntry env names v x = some c) :
    c.1 ∈ recovered env names v ∧ c.2 ∈ names c.1 := by
  obtain ⟨hmem, _⟩ := lastFor_mem hc
  obtain ⟨dir, hdir, hmem⟩ := List.mem_flatMap.mp hmem
  obtain ⟨e, he, rfl⟩ := List.mem_map.mp hmem
  exact ⟨hdir, he⟩

/-- **No name in a path has a slash**, or is one that leads elsewhere. -/
theorem component_pathLabel
    (hnames : ∀ c ∈ recovered env names v, ∀ e ∈ names c, Component e.name) (x : Ptr) :
    Component (pathLabel legal env names v x) := by
  have hgood : ∀ n, n = [] ∨ Component n → Component (goodName (v.heap.number x) n) := by
    intro n hn
    unfold goodName
    split
    · exact component_digits _
    · rename_i hbad
      rcases hn with rfl | hn
      · exact absurd rfl hbad
      · exact hn
  have hlabel : Component (label env names v x) := by
    unfold label
    split
    · exact component_original_root
    · apply hgood
      cases hlast : lastEntry env names v x with
      | none => exact Or.inl rfl
      | some c =>
        obtain ⟨hdir, he⟩ := mem_of_lastEntry hlast
        exact Or.inr (hnames _ hdir _ he)
  unfold pathLabel
  split
  · exact hlabel
  · exact component_digits _

theorem eq_of_namedInPlace {x y : Ptr}
    (hnames : ∀ c ∈ recovered env names v, ((names c).map InodeName.name).Nodup)
    (hx : NamedInPlace legal env names v x) (hy : NamedInPlace legal env names v y)
    (hplace : placeOf env names v x = placeOf env names v y)
    (hlabel : pathLabel legal env names v x = pathLabel legal env names v y) : x = y := by
  obtain ⟨c, hc, hcp, hcl⟩ := hx
  obtain ⟨d, hd, hdp, hdl⟩ := hy
  have hdir : c.1 = d.1 := by
    rw [hcp, hdp] at hplace
    exact Option.some.inj hplace
  have hname : c.2.name = d.2.name := by rw [← hcl, ← hdl, hlabel]
  obtain ⟨hcm, hce⟩ := mem_of_lastEntry hc
  obtain ⟨_, hde⟩ := mem_of_lastEntry hd
  rw [← hdir] at hde
  have hentry : c = d :=
    Prod.ext hdir (List.inj_on_of_nodup_map (hnames _ hcm) hce hde hname)
  subst hentry
  obtain ⟨_, hct⟩ := lastFor_mem hc
  obtain ⟨_, hdt⟩ := lastFor_mem hd
  exact Option.some.inj (hct.symm.trans hdt)

/-- **Paths are distinct exactly if place and name tell the inodes apart**, where the names in the
listings are components. -/
theorem distinctPaths_iff_apart (hdigits : ∀ n, legal (Nat.toDigits 10 n) = true)
    (hv : v.Indexed env) (hnew : Unnamed v.heap)
    (hends : ∀ x ∈ recovered env names v, Ends (claimant env names v) x)
    (hnames : ∀ c ∈ recovered env names v, ∀ e ∈ names c, Component e.name) (out : List Char) :
    DistinctPaths legal out env names v ↔
      ∀ x ∈ recovered env names v, ∀ y ∈ recovered env names v,
        placeOf env names v x = placeOf env names v y →
          pathLabel legal env names v x = pathLabel legal env names v y → x = y := by
  obtain ⟨w, u, hw, hu, hframe, hin, hparent, hname⟩ := named_recovered names hv hnew
  have hclosed : ∀ x ∈ u.inodes, ∀ p, u.heap.parentOf x = some p → p ∈ u.inodes := by
    intro x _ p hp
    rw [hparent] at hp
    rw [hin]
    exact mem_of_claimant hp
  have hends' : ∀ x ∈ u.inodes, Ends u.heap.parentOf x := by
    rw [hin, hparent]
    exact hends
  have hshown : ∀ x ∈ u.inodes, shown legal u.heap x = pathLabel legal env names v x := by
    intro x hx
    have hnum : (u.heap.obj x).diNumber = v.heap.number x := congrFun hframe.number x
    rw [shown, pathLabel, hname x hx, hnum]
  have hcomp : ∀ x ∈ u.inodes, ∀ ns, HasPath legal u x ns → ∀ n ∈ ns, Component n := by
    intro x hx ns hns
    refine Trail.forall_mem hclosed (fun y hy => ?_) ((hasPath_iff hdigits).mp hns) hx
    rw [hshown y hy]
    exact component_pathLabel hnames y
  have hdistinct : DistinctPaths legal out env names v ↔ ∀ x ∈ u.inodes, ∀ y ∈ u.inodes, ∀ ns,
      HasPath legal u x ns → HasPath legal u y ns → x = y := by
    constructor
    · rintro ⟨w', u', hw', hu', _, h⟩
      obtain rfl := Option.some.inj (hw.symm.trans hw')
      obtain rfl := Option.some.inj (hu.symm.trans hu')
      exact fun x hx y hy ns hxn hyn => h x hx y hy ns ns hxn hyn rfl
    · intro h
      refine ⟨w, u, hw, hu, fun x hx => ?_, fun x hx y hy ns ms hns hms heq => ?_⟩
      · obtain ⟨ns, hns⟩ := exists_trail (shown legal u.heap) (hends' x hx)
        exact ⟨ns, (hasPath_iff hdigits).mpr hns⟩
      · obtain rfl := foldl_join_injective (hcomp x hx ns hns) (hcomp y hy ms hms) heq
        exact h x hx y hy ns hns hms
  simp only [hasPath_iff hdigits] at hdistinct
  rw [hdistinct, trails_injective_iff (shown legal u.heap) hclosed hends', hparent, ← hin]
  refine forall₂_congr (fun x hx => forall₂_congr (fun y hy => ?_))
  rw [hshown x hx, hshown y hy]
  rfl

/-- **Paths are distinct unless an inode that its directory does not name** has the
place and the name of another one. -/
theorem distinctPaths_iff (hdigits : ∀ n, legal (Nat.toDigits 10 n) = true) (hv : v.Indexed env)
    (hnew : Unnamed v.heap)
    (hends : ∀ x ∈ recovered env names v, Ends (claimant env names v) x)
    (hnames : NamesApart names (recovered env names v)) (out : List Char) :
    DistinctPaths legal out env names v ↔
      ¬ ∃ x ∈ recovered env names v, ∃ y ∈ recovered env names v, x ≠ y ∧
        placeOf env names v x = placeOf env names v y ∧
        pathLabel legal env names v x = pathLabel legal env names v y ∧
        ¬ NamedInPlace legal env names v x := by
  rw [distinctPaths_iff_apart hdigits hv hnew hends hnames.components]
  constructor
  · rintro h ⟨x, hx, y, hy, hne, hplace, hlabel, _⟩
    exact hne (h x hx y hy hplace hlabel)
  · intro h x hx y hy hplace hlabel
    by_contra hne
    by_cases hxn : NamedInPlace legal env names v x
    · by_cases hyn : NamedInPlace legal env names v y
      · exact hne (eq_of_namedInPlace hnames.nodup hxn hyn hplace hlabel)
      · exact h ⟨y, hy, x, hx, fun h => hne h.symm, hplace.symm, hlabel.symm, hyn⟩
    · exact h ⟨x, hx, y, hy, hne, hplace, hlabel, hxn⟩

theorem mem_recovered_plainName {x : Ptr}
    (hx : x ∈ recovered plainName (decoded plainEntries) (bothInodes plainName)) :
    x = 1 ∨ x = 2 := by
  have hlist : recovered plainName (decoded plainEntries) (bothInodes plainName) = [1, 2] := by
    decide +kernel
  rw [hlist] at hx
  simpa using hx

theorem distinctPaths_plainName :
    DistinctPaths (fun _ => true) "out".toList plainName (decoded plainEntries)
      (bothInodes plainName) := by
  have hone : Ends (claimant plainName (decoded plainEntries) (bothInodes plainName)) 1 :=
    .root (by decide +kernel)
  have htwo : Ends (claimant plainName (decoded plainEntries) (bothInodes plainName)) 2 :=
    .link (by decide +kernel) hone
  refine (distinctPaths_iff (fun _ => rfl)
    ((sound_bothInodes plainName).indexed (by decide) (by decide)) (unnamed_bothInodes plainName)
    ?_ ⟨fun c hc => ?_, fun c hc => ?_⟩ _).mpr ?_
  · intro x hx
    rcases mem_recovered_plainName hx with rfl | rfl
    · exact hone
    · exact htwo
  · rcases mem_recovered_plainName hc with rfl | rfl
    · decide +kernel
    · decide +kernel
  · rcases mem_recovered_plainName hc with rfl | rfl
    · decide +kernel
    · decide +kernel
  · rintro ⟨x, hx, y, hy, hne, hplace, _⟩
    have hdiff : placeOf plainName (decoded plainEntries) (bothInodes plainName) 1
        ≠ placeOf plainName (decoded plainEntries) (bothInodes plainName) 2 := by decide +kernel
    rcases mem_recovered_plainName hx with rfl | rfl
    · rcases mem_recovered_plainName hy with rfl | rfl
      · exact hne rfl
      · exact hdiff hplace
    · rcases mem_recovered_plainName hy with rfl | rfl
      · exact hdiff hplace.symm
      · exact hne rfl

/-- Directory 3 lists inode 4 as `5`, and is the parent of directory 5, which nobody lists. -/
def nameFive : Env :=
  oneEntry [(261, 1), (262, 0x35), (1028, 16), (1032, 5), (1040, 4), (1064, 1), (1077, 0x40),
    (1268, 3)]

def fiveEntries (p : Ptr) : List InodeName := if p = 1 then [⟨['5'], 4⟩] else []

def threeInodes : InodeVector := (bothInodes nameFive).addBuilt addInode (built nameFive 1024)

theorem sound_threeInodes : threeInodes.Sound nameFive :=
  (sound_bothInodes nameFive).step
    (.addInode (built nameFive 1024) (fun _ hino => built_new hino))

/-- **A number that is a name.**  Everything the disk says is in order, and still inode 4
and directory 5 have the same path. -/
theorem not_distinctPaths_nameFive :
    (threeInodes.inodes.map threeInodes.heap.number).Nodup ∧
      (∀ x ∈ recovered nameFive fiveEntries threeInodes,
        Ends (claimant nameFive fiveEntries threeInodes) x) ∧
      (∀ c, ((fiveEntries c).map InodeName.name).Nodup ∧
        ∀ e ∈ fiveEntries c, Component e.name ∧ '\n' ∉ e.name) ∧
      ∀ out, ¬ DistinctPaths (fun _ => true) out nameFive fiveEntries threeInodes := by
  have hone : Ends (claimant nameFive fiveEntries threeInodes) 1 := .root (by decide +kernel)
  have htwo : Ends (claimant nameFive fiveEntries threeInodes) 2 := .link (by decide +kernel) hone
  have hthree : Ends (claimant nameFive fiveEntries threeInodes) 3 := .link (by decide +kernel) hone
  have hlist : recovered nameFive fiveEntries threeInodes = [1, 2, 3] := by decide +kernel
  have hends : ∀ x ∈ recovered nameFive fiveEntries threeInodes,
      Ends (claimant nameFive fiveEntries threeInodes) x := by
    rw [hlist]
    simp [hone, htwo, hthree]
  have hnames : ∀ c, ((fiveEntries c).map InodeName.name).Nodup ∧
      ∀ e ∈ fiveEntries c, Component e.name ∧ '\n' ∉ e.name := by
    intro c
    unfold fiveEntries
    split
    · decide
    · simp
  have hnew : Unnamed threeInodes.heap := by
    refine ⟨sound_threeInodes.unlinked, fun p => ?_⟩
    rw [threeInodes]
    exact name_addBuilt pushes_addInode (unnamed_bothInodes nameFive).unnamed 1024 p
  refine ⟨by decide +kernel, hends, hnames, fun out h => ?_⟩
  refine (distinctPaths_iff (fun _ => rfl) (sound_threeInodes.indexed (by decide) (by decide))
    hnew hends ⟨fun c _ e he => ((hnames c).2 e he).1, fun c _ => (hnames c).1⟩ out).mp h ?_
  refine ⟨3, by rw [hlist]; decide, 2, by rw [hlist]; decide, by decide, by decide +kernel,
    by decide +kernel, ?_⟩
  rintro ⟨c, hc, _⟩
  have hnone : lastEntry nameFive fiveEntries threeInodes 3 = none := by decide +kernel
  rw [hnone] at hc
  cases hc

end Recoverer

end Jfsrec
