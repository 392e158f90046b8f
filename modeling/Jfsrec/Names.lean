import Jfsrec.Dtree
import Jfsrec.Lib.Lexical
import Jfsrec.Parents

/-!
# Names

What the inodes are called after `find_file_parents_and_names`.  The last entry
for an inode names it, `lastEntry`; a name that is empty or has a line break
becomes the number of the inode, and the inode found under number 2 is called
`original_root` in any case.  `label` is the name that results, `named_recovered`.

The names come from the disk.  `confined_iff` says for which entries all output
stays below the output directory.
-/

namespace Jfsrec

open Lib InodeVector

namespace Recoverer

variable {env : Env} {names : Ptr → List InodeName} {v w u : InodeVector}

/-! ### The name of an inode -/

/-- The last of all entries for an inode, and the directory it is in. -/
def lastEntry (env : Env) (names : Ptr → List InodeName) (v : InodeVector) (x : Ptr) :
    Option (Ptr × InodeName) :=
  lastFor (target (newest env v.heap (recovered env names v)))
    ((recovered env names v).flatMap (claims names)) x

def isOriginalRoot (env : Env) (names : Ptr → List InodeName) (v : InodeVector) (x : Ptr) : Prop :=
  newest env v.heap (recovered env names v) 2 = some x

instance (env : Env) (names : Ptr → List InodeName) (v : InodeVector) (x : Ptr) :
    Decidable (isOriginalRoot env names v x) := inferInstanceAs (Decidable (_ = _))

def label (env : Env) (names : Ptr → List InodeName) (v : InodeVector) (x : Ptr) : List Char :=
  if isOriginalRoot env names v x then "original_root".toList
  else goodName (v.heap.number x) ((lastEntry env names v x).elim [] (fun c => c.2.name))

/-- The inodes are as their constructors left them. -/
structure Unnamed (h : Heap) : Prop where
  unlinked : ∀ p, (h.obj p).parent = NULL
  unnamed : ∀ p, (h.obj p).name = []

theorem name_directoryParent (hv : v.Indexed env) {i : ℕ} (hi : i < v.inodes.length) (x : Ptr) :
    ((directoryParent env i v).heap.obj x).name = (v.heap.obj x).name := by
  obtain ⟨hnot, hdir⟩ := directoryParent_spec hv (List.getElem?_eq_getElem hi)
  by_cases hd : v.heap.isDir v.inodes[i]
  · obtain ⟨w, hw, heq⟩ := hdir hd
    have hname : (w.heap.obj x).name = (v.heap.obj x).name :=
      congrArg Prod.snd (congrFun hw.links x)
    rw [heq]
    split
    · exact hname
    · split
      · exact hname
      · rename_i p _ _
        have hset : ((w.heap.setParent v.inodes[i] p).links x).2 = (w.heap.obj x).name := by
          rw [Heap.links_setParent, Function.update_apply, apply_ite Prod.snd]
          by_cases hx : x = v.inodes[i]
          · rw [if_pos hx, hx]
          · rw [if_neg hx]
            rfl
        exact hset.trans hname
  · rw [hnot hd]

theorem name_findDirectoryParents (hv : v.Indexed env)
    (hw : findDirectoryParents env v = some w) (x : Ptr) :
    (w.heap.obj x).name = (v.heap.obj x).name := by
  obtain ⟨j, hsteps, _⟩ := forSteps_of_forSize hw
  have h := hsteps.inv (I := fun _ w => Recovering env v w ∧
    (w.heap.obj x).name = (v.heap.obj x).name) (fun i w hw hi => ⟨(directoryParent_step hw.1 hi).1,
      (name_directoryParent hw.1.indexed hi x).trans hw.2⟩) ⟨.refl hv, rfl⟩
  exact h.2

/-- **Parents and names after both functions.** -/
theorem named_recovered (names : Ptr → List InodeName) (hv : v.Indexed env)
    (hnew : Unnamed v.heap) :
    ∃ w u, findDirectoryParents env v = some w ∧ findFileParentsAndNames env names w = some u ∧
      Heap.Frame env v.heap u.heap ∧
      u.inodes = recovered env names v ∧ u.heap.parentOf = claimant env names v ∧
      ∀ x ∈ u.inodes, (u.heap.obj x).name = label env names v x := by
  obtain ⟨w, u, hw, hu, hin, hparent⟩ := parentOf_recovered names hv hnew.unlinked
  obtain ⟨w', hw', hwrec, hwin⟩ := findDirectoryParents_spec hv
  obtain rfl := Option.some.inj (hw.symm.trans hw')
  obtain ⟨u', hu', hurec, _, _, hname⟩ := findFileParentsAndNames_spec names hwrec.indexed
  obtain rfl := Option.some.inj (hu.symm.trans hu')
  have hframe := hwrec.frame.trans hurec.frame
  refine ⟨w, u, hw, hu, hframe, hin, hparent, fun x hx => ?_⟩
  have hroot : u.lookup env 2 = some x ↔ isOriginalRoot env names v x := by
    rw [lookup_frame hframe, hin]
    rfl
  have hlast : (linked env names w u.inodes x).2
      = (lastEntry env names v x).elim [] (fun c => c.2.name) := by
    have hfresh : (w.heap.obj x).name = [] :=
      (name_findDirectoryParents hv hw x).trans (hnew.unnamed x)
    rw [linked, foldl_assign, newest_frame hwrec.frame, hin]
    show Prod.snd ((lastEntry env names v x).elim (w.heap.links x) link) = _
    cases lastEntry env names v x with
    | none => exact hfresh
    | some c => rfl
  rw [hname x hx, hlast, hwrec.frame.number, label]
  exact if_congr hroot rfl rfl

/-! ### Names from the disk -/

def decoded (entries : Ptr → List DirEntry) (p : Ptr) : List InodeName :=
  (entries p).map DirEntry.inodeName

def lastDirEntry (env : Env) (entries : Ptr → List DirEntry) (v : InodeVector) (x : Ptr) :
    Option (Ptr × DirEntry) :=
  lastFor (fun c => newest env v.heap (recovered env (decoded entries) v) c.2.inumber)
    ((recovered env (decoded entries) v).flatMap (fun dir => (entries dir).map (fun e => (dir, e))))
    x

theorem lastEntry_decoded (entries : Ptr → List DirEntry) (x : Ptr) :
    lastEntry env (decoded entries) v x
      = (lastDirEntry env entries v x).map (fun c => (c.1, c.2.inodeName)) := by
  have hclaims : (recovered env (decoded entries) v).flatMap (claims (decoded entries))
      = ((recovered env (decoded entries) v).flatMap
          (fun dir => (entries dir).map (fun e => (dir, e)))).map
            (fun c => (c.1, c.2.inodeName)) := by
    rw [List.map_flatMap]
    congr 1
    funext dir
    rw [claims, decoded, List.map_map, List.map_map]
    rfl
  rw [lastEntry, hclaims, lastFor_map]
  rfl

/-- A name that stays in its directory: one that is replaced by the number of the inode,
or else a single component. -/
def SafeText (t : List UniChar) : Prop :=
  t = [] ∨ 0x0A ∈ t ∨ 0x0D ∈ t ∨ 0x2F ∉ t ∧ t ≠ [0x2E] ∧ t ≠ [0x2E, 0x2E]

instance (t : List UniChar) : Decidable (SafeText t) := inferInstanceAs (Decidable (_ ∨ _))

theorem component_digits (n : ℕ) : Component (Nat.toDigits 10 n) := by
  have hd : ∀ c ∈ Nat.toDigits 10 n, c.isDigit = true := Istream.isDigit_toDigits
  have hhead : ∀ (c : Char) cs, c.isDigit = false → Nat.toDigits 10 n ≠ c :: cs := by
    intro c cs hc h
    have hdigit := hd c (by rw [h]; exact List.mem_cons_self)
    rw [hc] at hdigit
    cases hdigit
  refine ⟨Nat.toDigits_ne_nil, fun h => ?_, hhead _ _ (by decide), hhead _ _ (by decide)⟩
  exact absurd (hd _ h) (by decide)

theorem component_original_root : Component "original_root".toList := by decide

theorem badName_toUtf8 (n : UniName) :
    badName n.toUtf8 = true ↔ n.text = [] ∨ 0x0A ∈ n.text ∨ 0x0D ∈ n.text := by
  have hnil : n.toUtf8 = [] ↔ n.text = [] := n.toUtf8_eq_ascii [] (by simp)
  have hlf : '\n' ∈ n.toUtf8 ↔ 0x0A ∈ n.text := n.ascii_mem_toUtf8 (a := 0x0A) (by decide)
  have hcr : '\r' ∈ n.toUtf8 ↔ 0x0D ∈ n.text := n.ascii_mem_toUtf8 (a := 0x0D) (by decide)
  simp only [badName, Bool.or_eq_true, List.isEmpty_iff, List.contains_eq_mem, decide_eq_true_eq]
  rw [hnil, hlf, hcr, or_assoc]

/-- **The final name is a component exactly if the text is safe.** -/
theorem component_goodName (di : ℕ) (n : UniName) :
    Component (goodName di n.toUtf8) ↔ SafeText n.text := by
  by_cases hbad : badName n.toUtf8 = true
  · rw [goodName, if_pos hbad]
    refine iff_of_true (component_digits di) ?_
    rcases (badName_toUtf8 n).mp hbad with h | h | h
    · exact Or.inl h
    · exact Or.inr (Or.inl h)
    · exact Or.inr (Or.inr (Or.inl h))
  · have hgood := mt (badName_toUtf8 n).mpr hbad
    obtain ⟨hne, hgood⟩ := not_or.mp hgood
    obtain ⟨hlf, hcr⟩ := not_or.mp hgood
    have hnil : n.toUtf8 = [] ↔ n.text = [] := n.toUtf8_eq_ascii [] (by simp)
    have hslash : '/' ∈ n.toUtf8 ↔ 0x2F ∈ n.text := n.ascii_mem_toUtf8 (a := 0x2F) (by decide)
    have hdot : n.toUtf8 = ['.'] ↔ n.text = [0x2E] :=
      n.toUtf8_eq_ascii [0x2E] (by simp)
    have hdots : n.toUtf8 = Lib.dotdot ↔ n.text = [0x2E, 0x2E] :=
      n.toUtf8_eq_ascii [0x2E, 0x2E] (by simp)
    rw [goodName, if_neg hbad, Component, SafeText, hslash, ne_eq, ne_eq, ne_eq, hnil, hdot, hdots]
    constructor
    · intro h
      exact Or.inr (Or.inr (Or.inr h.2))
    · rintro (h | h | h | h)
      · exact absurd h hne
      · exact absurd h hlf
      · exact absurd h hcr
      · exact ⟨hne, h⟩

theorem component_label (entries : Ptr → List DirEntry) (x : Ptr) :
    Component (label env (decoded entries) v x) ↔
      (¬ isOriginalRoot env (decoded entries) v x →
        ∀ c, lastDirEntry env entries v x = some c → SafeText c.2.name.text) := by
  unfold label
  by_cases hroot : isOriginalRoot env (decoded entries) v x
  · rw [if_pos hroot]
    exact iff_of_true component_original_root (fun h => absurd hroot h)
  · rw [if_neg hroot, lastEntry_decoded]
    cases hlast : lastDirEntry env entries v x with
    | none =>
      refine iff_of_true ?_ (fun _ c hc => by cases hc)
      have hempty : goodName (v.heap.number x) [] = Nat.toDigits 10 (v.heap.number x) := rfl
      rw [Option.map_none, Option.elim_none, hempty]
      exact component_digits _
    | some c =>
      rw [Option.map_some, Option.elim_some]
      show Component (goodName _ c.2.name.toUtf8) ↔ _
      rw [component_goodName]
      constructor
      · intro h _ c' hc'
        rw [← Option.some.inj hc']
        exact h
      · intro h
        exact h hroot c rfl

/-! ### Paths below the output directory -/

/-- All members of `l` have components as names. -/
def ComponentsOn (l : List Ptr) (h : Heap) : Prop := ∀ x ∈ l, Component (h.obj x).name

theorem ComponentsOn.setName {l : List Ptr} {h : Heap} (hl : ComponentsOn l h) (p : Ptr) (di : ℕ) :
    ComponentsOn l (h.setName p (Nat.toDigits 10 di)) := by
  intro x hx
  rw [Heap.setName, Heap.set_obj]
  split
  · exact component_digits di
  · exact hl x hx

section FullPath

variable {legal : List Char → Bool} {f : Ptr → Option Ptr} {l : List Ptr}

/-- What a call of `get_full_path` for a member leaves and returns. -/
def Climbs (f : Ptr → Option Ptr) (l : List Ptr)
    (path : Ptr → Heap → Option (Option Path × Heap)) : Prop :=
  ∀ p ∈ l, ∀ h : Heap, h.parentOf = f → ComponentsOn l h → ∀ r h', path p h = some (r, h') →
    h'.parentOf = f ∧ ComponentsOn l h' ∧ ∀ ns, r = some ns → ns ≠ [] ∧ ∀ n ∈ ns, Component n

theorem components_concat {dir ns : Path} {name : List Char} (hdir : ∀ n ∈ dir, Component n)
    (hname : Component name)
    (hns : (if legal name then some (dir ++ [name]) else none) = some ns) :
    ns ≠ [] ∧ ∀ n ∈ ns, Component n := by
  split at hns
  · rw [← Option.some.inj hns]
    refine ⟨by simp, fun n hn => ?_⟩
    rcases List.mem_append.mp hn with hn | hn
    · exact hdir n hn
    · rw [List.mem_singleton.mp hn]
      exact hname
  · cases hns

theorem climbs_once (hclosed : ∀ x ∈ l, ∀ p, f x = some p → p ∈ l)
    {path : Ptr → Heap → Option (Option Path × Heap)} (hpath : Climbs f l path) :
    Climbs f l (fullPathOnce legal path) := by
  intro p hp h hf hl r h' hr
  have hown : ∀ ns, (if legal (h.obj p).name then some [(h.obj p).name] else none) = some ns →
      ns ≠ [] ∧ ∀ n ∈ ns, Component n :=
    fun ns hns => components_concat (List.forall_mem_nil _) (hl p hp) hns
  rcases fullPathOnce_some hr with hroot | ⟨hpar, _⟩
  · rw [fullPathOnce, if_pos hroot] at hr
    obtain ⟨rfl, rfl⟩ := Prod.mk.inj (Option.some.inj hr)
    exact ⟨hf, hl, hown⟩
  · rw [fullPathOnce] at hr
    split at hr
    · obtain ⟨rfl, rfl⟩ := Prod.mk.inj (Option.some.inj hr)
      exact ⟨hf, hl, hown⟩
    · have hmem : (h.obj p).parent ∈ l := hclosed p hp _ (by rw [← hf]; exact hpar)
      cases hcall : path (h.obj p).parent h with
      | none => rw [hcall] at hr; cases hr
      | some res =>
        obtain ⟨res, k⟩ := res
        obtain ⟨hk, hkl, hns⟩ := hpath _ hmem h hf hl res k hcall
        rw [hcall] at hr
        cases res with
        | none =>
          obtain ⟨rfl, rfl⟩ := Prod.mk.inj (Option.some.inj hr)
          exact ⟨hk, hkl, fun ns hns => by cases hns⟩
        | some dir =>
          obtain ⟨rfl, rfl⟩ := Prod.mk.inj (Option.some.inj hr)
          obtain ⟨_, hdir⟩ := hns dir rfl
          exact ⟨hk, hkl, fun ns hns' => components_concat hdir (hkl p hp) hns'⟩

/-- **A path is made of components** where all names are. -/
theorem climbs_getFullPath (hclosed : ∀ x ∈ l, ∀ p, f x = some p → p ∈ l) (fuel : ℕ) :
    Climbs f l (getFullPath legal fuel) := by
  induction fuel with
  | zero => intro p _ h _ _ r h' hr; cases hr
  | succ fuel ih =>
    have honce : Climbs f l (fullPathOnce legal (getFullPath legal fuel)) :=
      climbs_once hclosed ih
    intro p hp h hf hl r h' hr
    rw [getFullPath] at hr
    cases hcall : fullPathOnce legal (getFullPath legal fuel) p h with
    | none => rw [hcall] at hr; cases hr
    | some res =>
      obtain ⟨res, k⟩ := res
      obtain ⟨hk, hkl, hns⟩ := honce p hp h hf hl res k hcall
      rw [hcall] at hr
      cases res with
      | none =>
        -- the name has been replaced by the number
        exact honce p hp _ (by rw [parentOf_setName, hk]) (hkl.setName p _) r h' hr
      | some ns =>
        obtain ⟨rfl, rfl⟩ := Prod.mk.inj (Option.some.inj hr)
        exact ⟨hk, hkl, hns⟩

end FullPath

/-- After both functions every name is a single component, and every path lies strictly
below the output directory, whatever names the path library refuses. -/
def Confined (out : List Char) (env : Env) (names : Ptr → List InodeName) (v : InodeVector) :
    Prop :=
  ∃ w u, findDirectoryParents env v = some w ∧ findFileParentsAndNames env names w = some u ∧
    (∀ x ∈ u.inodes, Component (u.heap.obj x).name) ∧
    ∀ legal, ∀ x ∈ u.inodes, ∀ fuel path h,
      getFullPath legal fuel x u.heap = some (some path, h) →
        StrictlyBelow out (path.foldl join out)

/-- **Output stays below the output directory exactly if the last entry for every inode
has a safe name.** -/
theorem confined_iff (out : List Char) (entries : Ptr → List DirEntry) (hv : v.Indexed env)
    (hnew : Unnamed v.heap) :
    Confined out env (decoded entries) v ↔
      ∀ x ∈ recovered env (decoded entries) v, ¬ isOriginalRoot env (decoded entries) v x →
        ∀ c, lastDirEntry env entries v x = some c → SafeText c.2.name.text := by
  obtain ⟨w, u, hw, hu, _, hin, hparent, hname⟩ := named_recovered (decoded entries) hv hnew
  constructor
  · rintro ⟨w', u', hw', hu', hcomp, _⟩ x hx
    obtain rfl := Option.some.inj (hw.symm.trans hw')
    obtain rfl := Option.some.inj (hu.symm.trans hu')
    rw [← hin] at hx
    have h := hcomp x hx
    rw [hname x hx] at h
    exact (component_label entries x).mp h
  · intro h
    have hcomp : ComponentsOn u.inodes u.heap := by
      intro x hx
      rw [hname x hx]
      exact (component_label entries x).mpr (h x (by rw [← hin]; exact hx))
    refine ⟨w, u, hw, hu, hcomp, fun legal x hx fuel path h' hpath => ?_⟩
    have hclosed : ∀ x ∈ u.inodes, ∀ p, claimant env (decoded entries) v x = some p →
        p ∈ u.inodes := by
      intro x _ p hp
      rw [hin]
      exact mem_of_claimant hp
    obtain ⟨_, _, hns⟩ :=
      climbs_getFullPath hclosed fuel x hx u.heap hparent hcomp (some path) h' hpath
    obtain ⟨hne, hcs⟩ := hns path rfl
    exact strictlyBelow_foldl_join hcs hne

/-! ### An example -/

/-- Directory 3, which lists inode 4 under the given name. -/
def oneEntry (bytes : List (ℕ × UInt8)) : Env :=
  (Device.disk ([(4, 16), (8, 3), (16, 4), (40, 1), (53, 0x40), (240, 2), (241, 1), (248, 1),
    (256, 4), (260, 0xFF), (516, 16), (520, 4), (528, 4), (552, 1), (565, 0x80)] ++ bytes)).zeroed

def bothInodes (env : Env) : InodeVector :=
  ((start false).addBuilt addInode (built env 0)).addBuilt addInode (built env 512)

theorem sound_bothInodes (env : Env) : (bothInodes env).Sound env :=
  ((sound_start env false).step
    (.addInode (built env 0) (fun _ hino => built_new hino))).step
      (.addInode (built env 512) (fun _ hino => built_new hino))

theorem name_addBuilt {push : InodeVector → Ptr → InodeVector} {sel oth : InodeVector → List Ptr}
    (hp : Pushes push sel oth) (hv : ∀ p, (v.heap.obj p).name = []) (bo : ℕ) (p : Ptr) :
    ((v.addBuilt push (built env bo)).heap.obj p).name = [] :=
  forall_obj_addBuilt (P := fun ino => ino.name = []) hp (fun _ _ _ => rfl) hv bo p

theorem unnamed_bothInodes (env : Env) : Unnamed (bothInodes env).heap where
  unlinked := (sound_bothInodes env).unlinked
  unnamed := by
    have hone : ∀ p, (((start false).addBuilt addInode (built env 0)).heap.obj p).name = [] :=
      fun p => name_addBuilt pushes_addInode (fun _ => rfl) 0 p
    intro p
    rw [bothInodes]
    exact name_addBuilt pushes_addInode hone 512 p

def plainName : Env := oneEntry [(261, 1), (262, 0x61)]

def plainEntries (p : Ptr) : List DirEntry :=
  if p = 1 then [{ DirInode.nameA with inumber := 4 }] else []

theorem confined_plainName :
    Confined "out".toList plainName (decoded plainEntries) (bothInodes plainName) := by
  refine (confined_iff _ plainEntries ((sound_bothInodes plainName).indexed (by decide) (by decide))
    (unnamed_bothInodes plainName)).mpr ?_
  intro x _ _ c hc
  have hall : ∀ p, ∀ e ∈ plainEntries p, SafeText e.name.text := by
    intro p e he
    unfold plainEntries at he
    split at he
    · rw [List.mem_singleton.mp he]
      decide
    · cases he
  obtain ⟨hmem, _⟩ := lastFor_mem hc
  obtain ⟨dir, _, hmem⟩ := List.mem_flatMap.mp hmem
  obtain ⟨e, he, rfl⟩ := List.mem_map.mp hmem
  exact hall dir e he

def dotdotName : Env := oneEntry [(261, 2), (262, 0x2E), (264, 0x2E)]

def dotdotEntry : DirEntry := ⟨⟨[0x2E, 0x2E], by decide⟩, 4⟩

def dotdotEntries (p : Ptr) : List DirEntry := if p = 1 then [dotdotEntry] else []

/-- **The program reads `..` from the disk** and puts inode 4 beside its directory. -/
theorem not_confined_dotdotName :
    (∃ fuel, DirInode.extractInodeNames dotdotName fuel 3 0 = some (decoded dotdotEntries 1)) ∧
      ¬ Confined "out".toList dotdotName (decoded dotdotEntries) (bothInodes dotdotName) := by
  refine ⟨⟨0, by decide +kernel⟩, fun h => ?_⟩
  have hsafe := (confined_iff _ dotdotEntries
    ((sound_bothInodes dotdotName).indexed (by decide) (by decide))
    (unnamed_bothInodes dotdotName)).mp h
  have hlast : lastDirEntry dotdotName dotdotEntries (bothInodes dotdotName) 2
      = some (1, dotdotEntry) := by decide +kernel
  have htext := hsafe 2 (by decide +kernel) (by decide +kernel) _ hlast
  exact absurd htext (by decide)

end Recoverer

end Jfsrec
