import Jfsrec.Lib.Istream
import Jfsrec.Recoverer

/-!
# Sane by association

The two loops of the recoverer as runs.  On the inodes they are closures,
`findDirectoryParents_spec` and `nameLoop_spec`: a directory requests the number
of its parent, and then every inode the numbers its listing names.  On parents
and names the second loop writes one entry after another, each to the inode its
number finds at the end, because what a number finds does not change once it has
been asked for.

`association_fixpoint` puts the two together.
-/

namespace Jfsrec

open Lib InodeVector

namespace Recoverer

variable {env : Env} {names : Ptr → List InodeName} {v₀ v w u : InodeVector}

def dotdot (h : Heap) (c : Ptr) : List ℕ := if h.isDir c then [(h.obj c).parentDiNumber] else []

def listed (names : Ptr → List InodeName) (c : Ptr) : List ℕ := (names c).map InodeName.diNumber

theorem dotdot_frame {h h' : Heap} (a : Heap.Frame env h h') : dotdot h' = dotdot h := by
  funext c
  have hd : h'.isDir c ↔ h.isDir c := by rw [Heap.isDir, Heap.isDir, a.kind]
  rw [dotdot, dotdot, a.parentDiNumber]
  exact if_congr hd rfl rfl

/-! ### States of a recovery -/

/-- `v` is a state of the recovery that started from `v₀`. -/
structure Recovering (env : Env) (v₀ v : InodeVector) : Prop where
  frame : Heap.Frame env v₀.heap v.heap
  invalidated : v.invalidatedInodes = v₀.invalidatedInodes
  indexed : v.Indexed env

theorem store_number {d : ℕ} {p : Ptr} (h : v.store env d = some p) : v.heap.number p = d :=
  (oldest_mem h).2

theorem store_mem (d : ℕ) (p : Ptr) (h : v.store env d = some p) : p ∈ v.invalidatedInodes :=
  (oldest_mem h).1

theorem newest_grown {l l' : List Ptr} (hg : Grown v.heap.number (v.store env) l l') {d : ℕ}
    (ha : Answered v.heap.number (v.store env) l d) :
    newest env v.heap l' d = newest env v.heap l d := by
  obtain ⟨new, hnew, _, hpick⟩ := hg
  have hnone : ∀ p ∈ new, (v.heap.obj p).diNumber ≠ d := by
    intro p hp hd
    obtain ⟨hun, hstore⟩ := hpick p hp
    have hnum : v.heap.number p = d := hd
    rw [hnum] at hun hstore
    rcases ha with ha | ha
    · exact hun ha
    · rw [hstore] at ha
      cases ha
  have hfilter : new.filter (fun p => (v.heap.obj p).diNumber == d) = [] :=
    List.filter_eq_nil_iff.mpr (fun p hp => by simpa using hnone p hp)
  rw [hnew, newest, List.filter_append, hfilter, List.append_nil, newest]

namespace Recovering

theorem refl (hv : v.Indexed env) : Recovering env v v := ⟨.refl, rfl, hv⟩

theorem trans (h : Recovering env v₀ v) (h' : Recovering env v w) : Recovering env v₀ w :=
  ⟨h.frame.trans h'.frame, h'.invalidated.trans h.invalidated, h'.indexed⟩

theorem store (h : Recovering env v₀ v) : v.store env = v₀.store env :=
  store_frame h.frame h.invalidated

theorem of_frame (h : Recovering env v₀ v) {k : Heap} (a : Heap.Frame env v.heap k) :
    Recovering env v₀ { v with heap := k } :=
  ⟨h.frame.trans a, h.invalidated, h.indexed.of_frame a⟩

theorem asked (h : Recovering env v₀ v) {d : ℕ} (hw : v.Asked env d w) :
    Recovering env v₀ w ∧
      w.inodes = request v₀.heap.number (v₀.store env) v.inodes d := by
  refine ⟨⟨h.frame.trans hw.frame, hw.invalidated.trans h.invalidated, hw.indexed⟩, ?_⟩
  rw [hw.inodes, h.frame.number, h.store]

theorem grown_asked (h : Recovering env v₀ v) {d : ℕ} (hw : v.Asked env d w) :
    Grown v₀.heap.number (v₀.store env) v.inodes w.inodes := by
  rw [(h.asked hw).2]
  exact grown_request (fun _ _ => store_number) _ _

/-- **What a number finds stays** once the number has been asked for. -/
theorem lookup_stable (hv : Recovering env v₀ v) (hw : Recovering env v₀ w)
    (hg : Grown v₀.heap.number (v₀.store env) v.inodes w.inodes) {d : ℕ}
    (ha : Answered v₀.heap.number (v₀.store env) v.inodes d) :
    w.lookup env d = v.lookup env d := by
  rw [lookup_frame hv.frame, lookup_frame hw.frame, newest_grown hg ha]

end Recovering

/-! ### The first loop -/

theorem directoryParent_step (h : Recovering env v₀ v) {i : ℕ} (hi : i < v.inodes.length) :
    Recovering env v₀ (directoryParent env i v) ∧
      (directoryParent env i v).inodes
        = grow v₀.heap.number (v₀.store env) (dotdot v₀.heap) i v.inodes := by
  have hget : v.inodes[i]? = some v.inodes[i] := List.getElem?_eq_getElem hi
  obtain ⟨hother, hdir⟩ := directoryParent_spec h.indexed hget
  rw [grow_of_get hget, ← dotdot_frame h.frame]
  by_cases hd : v.heap.isDir v.inodes[i]
  · obtain ⟨w, hw, heq⟩ := hdir hd
    obtain ⟨hrec, hin⟩ := h.asked hw
    rw [dotdot, if_pos hd, List.foldl_cons, List.foldl_nil, ← hin, heq]
    split
    · exact ⟨hrec, rfl⟩
    · split
      · exact ⟨hrec, rfl⟩
      · exact ⟨hrec.of_frame Heap.frame_setParent, rfl⟩
  · rw [dotdot, if_neg hd, List.foldl_nil, hother hd]
    exact ⟨h, rfl⟩

/-- The inodes after the first loop. -/
def parentClosure (env : Env) (v : InodeVector) : List Ptr :=
  closure v.heap.number (v.store env) (dotdot v.heap) v.invalidatedInodes.length v.inodes

/-- **`find_directory_parents` ends**, with the closure under what directories ask
for. -/
theorem findDirectoryParents_spec (hv : v.Indexed env) :
    ∃ w, findDirectoryParents env v = some w ∧ Recovering env v w ∧
      w.inodes = parentClosure env v := by
  have hmap : (findDirectoryParents env v).map InodeVector.inodes
      = forSize List.length (grow v.heap.number (v.store env) (dotdot v.heap))
        (v.inodes.length + v.invalidatedInodes.length + 1) 0 v.inodes := by
    rw [findDirectoryParents]
    apply forSize_map (I := fun _ w => Recovering env v w)
    · exact fun _ => rfl
    · intro i w hw hi
      exact directoryParent_step hw hi
    · exact .refl hv
  rw [forSize_grow (fun _ _ => store_number) store_mem] at hmap
  obtain ⟨w, hw, hin⟩ := Option.map_eq_some_iff.mp hmap
  obtain ⟨j, hsteps, _⟩ := forSteps_of_forSize hw
  exact ⟨w, hw, hsteps.inv (I := fun _ w => Recovering env v w)
    (fun i w hw hi => (directoryParent_step hw hi).1) (.refl hv), hin⟩

/-! ### The second loop -/

def claims (names : Ptr → List InodeName) (dir : Ptr) : List (Ptr × InodeName) :=
  (names dir).map (fun e => (dir, e))

/-- Which inode an entry is written to. -/
def target (find : ℕ → Option Ptr) (c : Ptr × InodeName) : Option Ptr := find c.2.diNumber

def link (c : Ptr × InodeName) : Ptr × List Char := (c.1, c.2.name)

theorem nameEntry_step (h : Recovering env v₀ v) (dir : Ptr) (e : InodeName) :
    Recovering env v₀ (nameEntry env dir v e) ∧
      (nameEntry env dir v e).inodes
        = request v₀.heap.number (v₀.store env) v.inodes e.diNumber ∧
      (nameEntry env dir v e).heap.links
        = assign (target ((nameEntry env dir v e).lookup env)) link v.heap.links (dir, e) := by
  obtain ⟨w, hw, heq⟩ := nameEntry_spec h.indexed dir e
  obtain ⟨hrec, hin⟩ := h.asked hw
  cases hl : w.lookup env e.diNumber with
  | none =>
    simp only [hl] at heq
    have hfind : target (w.lookup env) (dir, e) = none := hl
    rw [heq, assign_of_none hfind]
    exact ⟨hrec, hin, hw.links⟩
  | some p =>
    simp only [hl] at heq
    have hframe : Heap.Frame env w.heap ((w.setName p e.name).setParent p dir).heap :=
      (Heap.frame_setName e.name).trans Heap.frame_setParent
    have hfind : target (((w.setName p e.name).setParent p dir).lookup env) (dir, e) = some p := by
      rw [target, lookup, newest_frame hframe]
      exact hl
    rw [heq, assign_of_some hfind]
    refine ⟨hrec.of_frame hframe, hin, ?_⟩
    have hname : ((w.heap.setName p e.name).obj p).name = e.name := by
      rw [Heap.setName, Heap.set_obj, if_pos rfl]
    show ((w.heap.setName p e.name).setParent p dir).links = _
    rw [Heap.links_setParent, hname, Heap.links_setName, Function.update_idem, hw.links]
    rfl

theorem target_nameEntry (h : Recovering env v₀ v) (dir : Ptr) (e : InodeName) {ds : List ℕ}
    (hw : Recovering env v₀ w) (hwin : w.inodes
      = ds.foldl (request v₀.heap.number (v₀.store env)) (nameEntry env dir v e).inodes) :
    target (w.lookup env) (dir, e) = target ((nameEntry env dir v e).lookup env) (dir, e) := by
  obtain ⟨hrec, hin, _⟩ := nameEntry_step h dir e
  have hans : Answered v₀.heap.number (v₀.store env) (nameEntry env dir v e).inodes
      e.diNumber := by
    rw [hin]
    exact answered_request (fun _ _ => store_number) v.inodes e.diNumber
  have hg : Grown v₀.heap.number (v₀.store env) (nameEntry env dir v e).inodes w.inodes := by
    rw [hwin]
    exact grown_requests (fun _ _ => store_number) _ _
  exact hrec.lookup_stable hw hg hans

theorem nameEntries_fold (es : List InodeName) (dir : Ptr) : ∀ {v : InodeVector},
    Recovering env v₀ v → ∃ w, es.foldl (nameEntry env dir) v = w ∧ Recovering env v₀ w ∧
      w.inodes = (es.map InodeName.diNumber).foldl (request v₀.heap.number (v₀.store env))
        v.inodes ∧
      w.heap.links = (es.map (fun e => (dir, e))).foldl (assign (target (w.lookup env)) link)
        v.heap.links := by
  induction es with
  | nil => exact fun h => ⟨_, rfl, h, rfl, rfl⟩
  | cons e es ih =>
    intro v h
    obtain ⟨hrec, hin, hlinks⟩ := nameEntry_step h dir e
    obtain ⟨w, hw, hwrec, hwin, hwlinks⟩ := ih hrec
    refine ⟨w, hw, hwrec, ?_, ?_⟩
    · rw [hwin, hin]
      rfl
    · have hsame := target_nameEntry h dir e hwrec hwin
      rw [List.map_cons, List.foldl_cons, assign_congr hsame, ← hlinks]
      exact hwlinks

/-- What holds at the heads of the second loop. -/
structure Named (env : Env) (names : Ptr → List InodeName) (v₀ : InodeVector) (i : ℕ)
    (v : InodeVector) : Prop where
  recovering : Recovering env v₀ v
  explored : Explored v₀.heap.number (v₀.store env) (listed names) v₀.inodes i v.inodes
  links : v.heap.links = ((v.inodes.take i).flatMap (claims names)).foldl
    (assign (target (v.lookup env)) link) v₀.heap.links

theorem Named.start (hv : v.Indexed env) : Named env names v 0 v :=
  ⟨.refl hv, explored_start v.inodes, rfl⟩

theorem nameEntries_step (names : Ptr → List InodeName) (h : Recovering env v₀ v) {i : ℕ}
    (hi : i < v.inodes.length) :
    Recovering env v₀ (nameEntries env names i v) ∧
      (nameEntries env names i v).inodes
        = grow v₀.heap.number (v₀.store env) (listed names) i v.inodes ∧
      (nameEntries env names i v).heap.links = (claims names v.inodes[i]).foldl
        (assign (target ((nameEntries env names i v).lookup env)) link) v.heap.links := by
  have hget : v.inodes[i]? = some v.inodes[i] := List.getElem?_eq_getElem hi
  have hdir : v.inodes.getD i NULL = v.inodes[i] := by rw [List.getD_eq_getElem?_getD, hget]; rfl
  obtain ⟨w, hw, hrec, hin, hlinks⟩ := nameEntries_fold (names v.inodes[i]) v.inodes[i] h
  simp only [nameEntries, hdir, hw]
  rw [grow_of_get hget]
  exact ⟨hrec, hin, hlinks⟩

theorem Named.target_stable {i : ℕ} (h : Named env names v₀ i v) (hw : Recovering env v₀ w)
    (hg : Grown v₀.heap.number (v₀.store env) v.inodes w.inodes) {c : Ptr × InodeName}
    (hc : c ∈ (v.inodes.take i).flatMap (claims names)) :
    target (v.lookup env) c = target (w.lookup env) c := by
  obtain ⟨dir, hdir, hc⟩ := List.mem_flatMap.mp hc
  obtain ⟨e, he, rfl⟩ := List.mem_map.mp hc
  have hans := h.explored.answered dir hdir e.diNumber (List.mem_map_of_mem he)
  exact (h.recovering.lookup_stable hw hg hans).symm

theorem Named.step {i : ℕ} (h : Named env names v₀ i v) (hi : i < v.inodes.length) :
    Named env names v₀ (i + 1) (nameEntries env names i v) := by
  obtain ⟨hrec, hin, hlinks⟩ := nameEntries_step names h.recovering hi
  have hexp := h.explored.step (fun _ _ => store_number) hi
  have hg : Grown v₀.heap.number (v₀.store env) v.inodes (nameEntries env names i v).inodes := by
    rw [hin]
    exact grown_grow (fun _ _ => store_number) i v.inodes
  refine ⟨hrec, by rw [hin]; exact hexp, ?_⟩
  have htake : (nameEntries env names i v).inodes.take (i + 1)
      = v.inodes.take i ++ [v.inodes[i]] := by
    rw [hin]
    exact take_grow (fun _ _ => store_number) hi
  have hsame : ∀ c ∈ (v.inodes.take i).flatMap (claims names),
      target (v.lookup env) c = target ((nameEntries env names i v).lookup env) c :=
    fun c hc => h.target_stable hrec hg hc
  rw [hlinks, h.links, htake, List.flatMap_append, List.foldl_append, List.flatMap_singleton,
    foldl_assign_congr hsame]

def nameClosure (env : Env) (names : Ptr → List InodeName) (v : InodeVector) : List Ptr :=
  closure v.heap.number (v.store env) (listed names) v.invalidatedInodes.length v.inodes

def linked (env : Env) (names : Ptr → List InodeName) (v : InodeVector) (l : List Ptr) :
    Ptr → Ptr × List Char :=
  (l.flatMap (claims names)).foldl (assign (target (newest env v.heap l)) link) v.heap.links

/-- **The second loop ends**, with the closure under what listings name. -/
theorem nameLoop_spec (names : Ptr → List InodeName) (hv : v.Indexed env) :
    ∃ u, forSize (fun v => v.inodes.length) (nameEntries env names)
        (v.inodes.length + v.invalidatedInodes.length + 1) 0 v = some u ∧
      Recovering env v u ∧ u.inodes = nameClosure env names v ∧
      u.heap.links = linked env names v u.inodes := by
  have hmap : (forSize (fun v => v.inodes.length) (nameEntries env names)
        (v.inodes.length + v.invalidatedInodes.length + 1) 0 v).map InodeVector.inodes
      = forSize List.length (grow v.heap.number (v.store env) (listed names))
        (v.inodes.length + v.invalidatedInodes.length + 1) 0 v.inodes := by
    apply forSize_map (I := fun _ w => Recovering env v w)
    · exact fun _ => rfl
    · intro i w hw hi
      obtain ⟨hrec, hin, _⟩ := nameEntries_step names hw hi
      exact ⟨hrec, hin⟩
    · exact .refl hv
  rw [forSize_grow (fun _ _ => store_number) store_mem] at hmap
  obtain ⟨u, hu, hin⟩ := Option.map_eq_some_iff.mp hmap
  obtain ⟨j, hsteps, hle⟩ := forSteps_of_forSize hu
  have h := hsteps.inv (I := Named env names v) (fun i w hw hi => hw.step hi) (.start hv)
  refine ⟨u, hu, h.recovering, hin, ?_⟩
  rw [h.links, List.take_of_length_le hle, lookup_frame h.recovering.frame, linked]

/-! ### The names at the end -/

def goodName (di : ℕ) (n : List Char) : List Char := if badName n then Nat.toDigits 10 di else n

theorem goodName_goodName (di : ℕ) (n : List Char) :
    goodName di (goodName di n) = goodName di n := by
  have hdigits : badName (Nat.toDigits 10 di) = false := by
    have hne : Nat.toDigits 10 di ≠ [] := Nat.toDigits_ne_nil
    have hd : ∀ c ∈ Nat.toDigits 10 di, c.isDigit = true := Istream.isDigit_toDigits
    simp only [badName, Bool.or_eq_false_iff, List.isEmpty_eq_false_iff, List.contains_eq_mem,
      decide_eq_false_iff_not]
    exact ⟨⟨hne, fun hc => absurd (hd _ hc) (by decide)⟩, fun hc => absurd (hd _ hc) (by decide)⟩
  by_cases h : badName n = true
  · have hg : goodName di n = Nat.toDigits 10 di := if_pos h
    rw [hg, goodName, hdigits]
    exact if_neg Bool.false_ne_true
  · have hg : goodName di n = n := if_neg h
    rw [hg, hg]

theorem replaceName_spec (env : Env) (h : Heap) (p : Ptr) :
    Heap.Frame env h (replaceName h p) ∧ (replaceName h p).links
      = Function.update h.links p ((h.links p).1, goodName (h.number p) (h.links p).2) := by
  unfold replaceName
  split
  · rename_i hbad
    have hgood : goodName (h.number p) (h.links p).2 = Nat.toDigits 10 (h.obj p).diNumber :=
      if_pos hbad
    rw [hgood]
    exact ⟨Heap.frame_setName _, Heap.links_setName _⟩
  · rename_i hbad
    have hgood : goodName (h.number p) (h.links p).2 = (h.links p).2 := if_neg hbad
    rw [hgood]
    exact ⟨.refl, (Function.update_eq_self p h.links).symm⟩

theorem foldl_replaceName (env : Env) (ps : List Ptr) : ∀ h : Heap,
    Heap.Frame env h (ps.foldl replaceName h) ∧ ∀ q, (ps.foldl replaceName h).links q
      = if q ∈ ps then ((h.links q).1, goodName (h.number q) (h.links q).2) else h.links q := by
  induction ps with
  | nil => exact fun h => ⟨.refl, fun q => (if_neg (by simp)).symm⟩
  | cons p ps ih =>
    intro h
    obtain ⟨hframe, hlinks⟩ := replaceName_spec env h p
    obtain ⟨hframe', hlinks'⟩ := ih (replaceName h p)
    refine ⟨hframe.trans hframe', fun q => ?_⟩
    rw [List.foldl_cons, hlinks', hlinks, hframe.number]
    by_cases hq : q = p
    · subst hq
      rw [Function.update_self, goodName_goodName, ite_self, if_pos List.mem_cons_self]
    · rw [Function.update_of_ne hq]
      simp only [List.mem_cons, hq, false_or]

theorem originalRoot_spec (hv : v.Indexed env) :
    Recovering env v (originalRoot env v) ∧ (originalRoot env v).inodes = v.inodes ∧
      ∀ q, (originalRoot env v).heap.links q = if v.lookup env 2 = some q then
        ((v.heap.links q).1, "original_root".toList) else v.heap.links q := by
  obtain ⟨u, hget, hs, hin, hinv, hidx⟩ := getByDiNumber_indexed hv 2
  have hu : Recovering env v u := ⟨hs.frame, hinv, hidx⟩
  rw [originalRoot, hget]
  cases hl : v.lookup env 2 with
  | none =>
    refine ⟨hu, hin, fun q => ?_⟩
    rw [if_neg (by simp)]
    exact congrFun hs.links q
  | some p =>
    have hne : p ≠ NULL := by
      rintro rfl
      exact hv.inodes (newest_mem hl).1
    simp only [Option.getD_some, if_pos hne]
    refine ⟨hu.of_frame (Heap.frame_setName _), hin, fun q => ?_⟩
    show (u.heap.setName p _).links q = _
    rw [Heap.links_setName, hs.links, Function.update_apply]
    by_cases hq : q = p
    · subst hq
      rw [if_pos rfl, if_pos rfl]
      have hpar : (u.heap.obj q).parent = (v.heap.links q).1 :=
        congrArg Prod.fst (congrFun hs.links q)
      rw [hpar]
    · rw [if_neg hq, if_neg (by simpa using fun h => hq h.symm)]

/-- **`find_file_parents_and_names` ends.**  Its last two steps write names only. -/
theorem findFileParentsAndNames_spec (names : Ptr → List InodeName) (hv : v.Indexed env) :
    ∃ u, findFileParentsAndNames env names v = some u ∧ Recovering env v u ∧
      u.inodes = nameClosure env names v ∧
      (∀ x, (u.heap.obj x).parent = (linked env names v u.inodes x).1) ∧
      ∀ x ∈ u.inodes, (u.heap.obj x).name = if u.lookup env 2 = some x then
        "original_root".toList
        else goodName (v.heap.number x) (linked env names v u.inodes x).2 := by
  obtain ⟨u, hu, hrec, hin, hlinks⟩ := nameLoop_spec names hv
  obtain ⟨hframe, hnames⟩ := foldl_replaceName env u.inodes u.heap
  have hrec' := hrec.of_frame hframe
  obtain ⟨hroot, hrootin, hrootlinks⟩ := originalRoot_spec hrec'.indexed
  have hfind : (originalRoot env { u with heap := u.inodes.foldl replaceName u.heap }).lookup env
      = InodeVector.lookup env { u with heap := u.inodes.foldl replaceName u.heap } := by
    rw [lookup_frame hroot.frame, hrootin]
    rfl
  have hall := hrec'.trans hroot
  refine ⟨originalRoot env { u with heap := u.inodes.foldl replaceName u.heap },
    by rw [findFileParentsAndNames, hu]; rfl, hall, hrootin.trans hin, fun x => ?_, fun x hx => ?_⟩
  · have h1 := congrArg Prod.fst (hrootlinks x)
    rw [hrootin, ← hlinks]
    refine h1.trans ?_
    rw [apply_ite Prod.fst, ite_self, hnames, apply_ite Prod.fst, ite_self]
  · have h1 := congrArg Prod.snd (hrootlinks x)
    rw [hrootin] at hx ⊢
    rw [hfind, ← hlinks]
    refine h1.trans ?_
    rw [apply_ite Prod.snd, hnames, if_pos hx, hrec.frame.number]

theorem recovering_of_run (hv : v.Indexed env) (hw : findDirectoryParents env v = some w)
    (hu : findFileParentsAndNames env names w = some u) :
    Recovering env v w ∧ Recovering env w u ∧ w.inodes = parentClosure env v := by
  obtain ⟨w', hw', hwrec, hwin⟩ := findDirectoryParents_spec hv
  obtain rfl := Option.some.inj (hw.symm.trans hw')
  obtain ⟨u', hu', hurec, _⟩ := findFileParentsAndNames_spec names hwrec.indexed
  obtain rfl := Option.some.inj (hu.symm.trans hu')
  exact ⟨hwrec, hurec, hwin⟩

end Recoverer

end Jfsrec
