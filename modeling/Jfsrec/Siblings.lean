import Jfsrec.Parents

/-!
# Siblings

`DirInode::set_parent` enters the directory among the siblings of its parent.  It
does not ask whether it stands there already, and does not take it out where it
stood before, so the lists remember every link that was ever set while `parent_`
remembers the last.

`siblings_recovered` gives the entries of both loops in order, `linkings`, and
`siblingsAgree_iff` says that the lists agree with the parents exactly if no
directory is linked twice.
-/

namespace Jfsrec

open Lib InodeVector

namespace Heap

variable {env : Env} {h h' : Heap} {p i : Ptr}

theorem entry_frame (a : Frame env h h') : h'.entry = h.entry := by
  funext p i
  have hdir : ∀ q, h'.isDir q ↔ h.isDir q := by
    intro q
    rw [isDir, isDir, a.kind]
  rw [entry, entry]
  exact if_congr (by rw [hdir, hdir]) rfl rfl

theorem entry_of_not_dir (hp : ¬ h.isDir p) : h.entry p i = [] := if_neg (fun hd => hp hd.1)

theorem entry_of_not_dir_right (hi : ¬ h.isDir i) : h.entry p i = [] := if_neg (fun hd => hi hd.2.2)

end Heap

namespace Recoverer

variable {env : Env} {names : Ptr → List InodeName} {v₀ v w u : InodeVector}

/-! ### The first loop -/

def adoption (env : Env) (v : InodeVector) (l : List Ptr) (x : Ptr) : List (Ptr × Ptr) :=
  (newest env v.heap l (v.heap.obj x).parentDiNumber).elim [] (v.heap.entry x)

theorem adoption_of_not_dir {l : List Ptr} {x : Ptr} (hx : ¬ v.heap.isDir x) :
    adoption env v l x = [] := by
  unfold adoption
  cases newest env v.heap l (v.heap.obj x).parentDiNumber with
  | none => rfl
  | some p => exact Heap.entry_of_not_dir hx

theorem siblings_directoryParent (h : Recovering env v₀ v) {i : ℕ} (hi : i < v.inodes.length) :
    (directoryParent env i v).heap.siblings
      = (adoption env v₀ (directoryParent env i v).inodes v.inodes[i]).foldl enlist
          v.heap.siblings := by
  obtain ⟨hnot, hdir⟩ := directoryParent_spec h.indexed (List.getElem?_eq_getElem hi)
  generalize v.inodes[i] = c at hnot hdir ⊢
  by_cases hd : v.heap.isDir c
  · obtain ⟨w, hw, heq⟩ := hdir hd
    obtain ⟨hrec, _⟩ := h.asked hw
    rw [h.frame.parentDiNumber] at heq hw
    have hfind : w.lookup env (v₀.heap.obj c).parentDiNumber
        = newest env v₀.heap w.inodes (v₀.heap.obj c).parentDiNumber := by
      rw [lookup_frame hrec.frame]
    cases hl : w.lookup env (v₀.heap.obj c).parentDiNumber with
    | none =>
      simp only [hl] at heq
      rw [heq, adoption, ← hfind, hl, hw.siblings]
      rfl
    | some p =>
      simp only [hl, h.frame.kind] at heq
      split at heq
      · rename_i hfile
        have hpd : ¬ v₀.heap.isDir p := by
          rw [Heap.isDir, hfile.1]
          decide
        rw [heq, adoption, ← hfind, hl, hw.siblings]
        show v.heap.siblings = (v₀.heap.entry c p).foldl enlist v.heap.siblings
        rw [Heap.entry_of_not_dir_right hpd]
        rfl
      · have hin : (directoryParent env i v).inodes = w.inodes := by
          rw [heq]
          rfl
        rw [hin, adoption, ← hfind, hl, heq, ← hw.siblings, ← Heap.entry_frame hrec.frame]
        exact Heap.siblings_setParent
  · have hd₀ : ¬ v₀.heap.isDir c := by
      rw [Heap.isDir, ← h.frame.kind]
      exact hd
    rw [hnot hd, adoption_of_not_dir hd₀]
    rfl

/-- What holds at the heads of the first loop. -/
structure Enlisting (env : Env) (v₀ : InodeVector) (i : ℕ) (v : InodeVector) : Prop where
  adopting : Adopting env v₀ i v
  siblings : v.heap.siblings
    = ((v.inodes.take i).flatMap (adoption env v₀ v.inodes)).foldl enlist v₀.heap.siblings

theorem Enlisting.start (hv : v.Indexed env) : Enlisting env v 0 v := ⟨.start hv, rfl⟩

theorem Enlisting.step {i : ℕ} (h : Enlisting env v₀ i v) (hi : i < v.inodes.length) :
    Enlisting env v₀ (i + 1) (directoryParent env i v) := by
  obtain ⟨hrec, hin⟩ := directoryParent_step h.adopting.recovering hi
  have hg : Grown v₀.heap.number (v₀.store env) v.inodes (directoryParent env i v).inodes := by
    rw [hin]
    exact grown_grow (fun _ _ => store_number) i v.inodes
  have htake :
      (directoryParent env i v).inodes.take (i + 1) = v.inodes.take i ++ [v.inodes[i]] := by
    rw [hin]
    exact take_grow (fun _ _ => store_number) hi
  -- what the visited ones found they still find
  have hstable : ∀ x ∈ v.inodes.take i,
      adoption env v₀ v.inodes x = adoption env v₀ (directoryParent env i v).inodes x := by
    intro x hx
    by_cases hd : v₀.heap.isDir x
    · rw [adoption, adoption, h.adopting.newest_stable hrec hg hx hd]
    · rw [adoption_of_not_dir hd, adoption_of_not_dir hd]
  refine ⟨h.adopting.step hi, ?_⟩
  rw [siblings_directoryParent h.adopting.recovering hi, h.siblings, htake, List.flatMap_append,
    List.flatMap_singleton, List.foldl_append, List.flatMap_congr hstable]

theorem siblings_findDirectoryParents (hv : v.Indexed env)
    (hw : findDirectoryParents env v = some w) : w.heap.siblings
      = (w.inodes.flatMap (adoption env v w.inodes)).foldl enlist v.heap.siblings := by
  obtain ⟨j, hsteps, hle⟩ := forSteps_of_forSize hw
  have h := hsteps.inv (I := Enlisting env v) (fun i w h hi => h.step hi) (.start hv)
  rw [h.siblings, List.take_of_length_le hle]

/-! ### The second loop -/

def mention (h : Heap) (find : ℕ → Option Ptr) (c : Ptr × InodeName) : List (Ptr × Ptr) :=
  (target find c).elim [] (fun p => h.entry p c.1)

theorem mention_congr {h : Heap} {find find' : ℕ → Option Ptr} {c : Ptr × InodeName}
    (hc : target find c = target find' c) : mention h find c = mention h find' c := by
  rw [mention, mention, hc]

theorem siblings_nameEntry (h : Recovering env v₀ v) (dir : Ptr) (e : InodeName) :
    (nameEntry env dir v e).heap.siblings
      = (mention v₀.heap ((nameEntry env dir v e).lookup env) (dir, e)).foldl enlist
          v.heap.siblings := by
  obtain ⟨w, hw, heq⟩ := nameEntry_spec h.indexed dir e
  obtain ⟨hrec, _⟩ := h.asked hw
  cases hl : w.lookup env e.diNumber with
  | none =>
    simp only [hl] at heq
    have hfind : target (w.lookup env) (dir, e) = none := hl
    rw [heq, mention, hfind, hw.siblings]
    rfl
  | some p =>
    simp only [hl] at heq
    have hname : Heap.Frame env w.heap (w.setName p e.name).heap := Heap.frame_setName e.name
    have hframe : Heap.Frame env w.heap ((w.setName p e.name).setParent p dir).heap :=
      hname.trans Heap.frame_setParent
    have hfind : target (((w.setName p e.name).setParent p dir).lookup env) (dir, e) = some p := by
      rw [target, lookup, newest_frame hframe]
      exact hl
    rw [heq, mention, hfind, ← hw.siblings, ← Heap.entry_frame (hrec.frame.trans hname)]
    show ((w.heap.setName p e.name).setParent p dir).siblings = _
    rw [Heap.siblings_setParent, Heap.siblings_setName]
    rfl

theorem siblings_nameEntries (es : List InodeName) (dir : Ptr) : ∀ {v : InodeVector},
    Recovering env v₀ v → (es.foldl (nameEntry env dir) v).heap.siblings
      = ((es.map (fun e => (dir, e))).flatMap
          (mention v₀.heap ((es.foldl (nameEntry env dir) v).lookup env))).foldl enlist
            v.heap.siblings := by
  induction es with
  | nil => exact fun _ => rfl
  | cons e es ih =>
    intro v h
    obtain ⟨hrec, _⟩ := nameEntry_step h dir e
    obtain ⟨w, hw, hwrec, hwin, _⟩ := nameEntries_fold es dir hrec
    have htail := ih hrec
    rw [List.foldl_cons, List.map_cons, List.flatMap_cons, List.foldl_append]
    rw [hw] at htail ⊢
    have hsame := target_nameEntry h dir e hwrec hwin
    rw [mention_congr hsame, ← siblings_nameEntry h]
    exact htail

/-- What holds at the heads of the second loop. -/
structure Mentioning (env : Env) (names : Ptr → List InodeName) (v₀ : InodeVector) (i : ℕ)
    (v : InodeVector) : Prop where
  named : Named env names v₀ i v
  siblings : v.heap.siblings = (((v.inodes.take i).flatMap (claims names)).flatMap
    (mention v₀.heap (v.lookup env))).foldl enlist v₀.heap.siblings

theorem Mentioning.start (hv : v.Indexed env) : Mentioning env names v 0 v := ⟨.start hv, rfl⟩

theorem Mentioning.step {i : ℕ} (h : Mentioning env names v₀ i v) (hi : i < v.inodes.length) :
    Mentioning env names v₀ (i + 1) (nameEntries env names i v) := by
  have hget : v.inodes[i]? = some v.inodes[i] := List.getElem?_eq_getElem hi
  have hdir : v.inodes.getD i NULL = v.inodes[i] := by rw [List.getD_eq_getElem?_getD, hget]; rfl
  obtain ⟨hrec, hin, _⟩ := nameEntries_step names h.named.recovering hi
  have hg : Grown v₀.heap.number (v₀.store env) v.inodes (nameEntries env names i v).inodes := by
    rw [hin]
    exact grown_grow (fun _ _ => store_number) i v.inodes
  have htake : (nameEntries env names i v).inodes.take (i + 1)
      = v.inodes.take i ++ [v.inodes[i]] := by
    rw [hin]
    exact take_grow (fun _ _ => store_number) hi
  have hsame : ∀ c ∈ (v.inodes.take i).flatMap (claims names),
      mention v₀.heap (v.lookup env) c
        = mention v₀.heap ((nameEntries env names i v).lookup env) c :=
    fun c hc => mention_congr (h.named.target_stable hrec hg hc)
  have hround : (nameEntries env names i v).heap.siblings
      = ((claims names v.inodes[i]).flatMap
          (mention v₀.heap ((nameEntries env names i v).lookup env))).foldl enlist
            v.heap.siblings := by
    simp only [nameEntries, hdir]
    exact siblings_nameEntries (names v.inodes[i]) v.inodes[i] h.named.recovering
  refine ⟨h.named.step hi, ?_⟩
  rw [hround, h.siblings, htake, List.flatMap_append, List.flatMap_append, List.foldl_append,
    List.flatMap_singleton, List.flatMap_congr hsame]

/-! ### Both functions -/

theorem siblings_replaceNames (ps : List Ptr) (h : Heap) :
    (ps.foldl replaceName h).siblings = h.siblings := by
  induction ps generalizing h with
  | nil => rfl
  | cons p ps ih =>
    rw [List.foldl_cons, ih, replaceName]
    split
    · exact Heap.siblings_setName _
    · rfl

theorem siblings_originalRoot (hv : v.Indexed env) :
    (originalRoot env v).heap.siblings = v.heap.siblings := by
  obtain ⟨u, hget, hs, _⟩ := getByDiNumber_indexed hv 2
  rw [originalRoot, hget]
  by_cases hn : (v.lookup env 2).getD NULL ≠ NULL
  · rw [← hs.siblings]
    simp only [if_pos hn]
    exact Heap.siblings_setName _
  · rw [← hs.siblings]
    simp only [if_neg hn]

theorem siblings_findFileParentsAndNames (names : Ptr → List InodeName) (hv : v.Indexed env)
    (hu : findFileParentsAndNames env names v = some u) : u.heap.siblings
      = ((u.inodes.flatMap (claims names)).flatMap
          (mention v.heap (newest env v.heap u.inodes))).foldl enlist v.heap.siblings := by
  obtain ⟨t, ht, rfl⟩ := Option.map_eq_some_iff.mp hu
  obtain ⟨j, hsteps, hle⟩ := forSteps_of_forSize ht
  have h := hsteps.inv (I := Mentioning env names v) (fun i w h hi => h.step hi) (.start hv)
  obtain ⟨hframe, _⟩ := foldl_replaceName env t.inodes t.heap
  have hrec := h.named.recovering.of_frame hframe
  obtain ⟨_, hin, _⟩ := originalRoot_spec hrec.indexed
  rw [siblings_originalRoot hrec.indexed, hin]
  show (t.inodes.foldl replaceName t.heap).siblings = _
  rw [siblings_replaceNames, h.siblings, List.take_of_length_le hle,
    lookup_frame h.named.recovering.frame]

def linkings (env : Env) (names : Ptr → List InodeName) (v : InodeVector) : List (Ptr × Ptr) :=
  (parentClosure env v).flatMap (adoption env v (parentClosure env v)) ++
    ((recovered env names v).flatMap (claims names)).flatMap
      (mention v.heap (newest env v.heap (recovered env names v)))

/-- **The siblings are what the entries make of them.** -/
theorem siblings_recovered (names : Ptr → List InodeName) (hv : v.Indexed env)
    (hunlinked : ∀ p, (v.heap.obj p).parent = NULL) :
    ∃ w u, findDirectoryParents env v = some w ∧ findFileParentsAndNames env names w = some u ∧
      Recovering env v u ∧ u.heap.parentOf = claimant env names v ∧
      u.heap.siblings = (linkings env names v).foldl enlist v.heap.siblings := by
  obtain ⟨w, u, hw, hu, hin, hparent⟩ := parentOf_recovered names hv hunlinked
  obtain ⟨hwrec, hurec, hwin⟩ := recovering_of_run hv hw hu
  have hmention : mention w.heap = mention v.heap := by
    funext find c
    rw [mention, mention, Heap.entry_frame hwrec.frame]
  refine ⟨w, u, hw, hu, hwrec.trans hurec, hparent, ?_⟩
  rw [siblings_findFileParentsAndNames names hwrec.indexed hu, siblings_findDirectoryParents hv hw,
    ← List.foldl_append, hin, hwin, hmention, newest_frame hwrec.frame, linkings]

/-! ### How often a directory is linked -/

def parentDir (env : Env) (v : InodeVector) (x : Ptr) : Option Ptr :=
  (newest env v.heap (parentClosure env v) (v.heap.obj x).parentDiNumber).filter
    (fun p => v.heap.isDir p)

def mentions (env : Env) (names : Ptr → List InodeName) (v : InodeVector) (x : Ptr) :
    List (Ptr × InodeName) :=
  ((recovered env names v).flatMap (claims names)).filter
    (fun c => target (newest env v.heap (recovered env names v)) c = some x)

/-- Once for every round that visits it, if its `idotdot` finds a directory, and once
for every name. -/
def timesLinked (env : Env) (names : Ptr → List InodeName) (v : InodeVector) (x : Ptr) : ℕ :=
  (if (parentDir env v x).isSome then (parentClosure env v).count x else 0) +
    (mentions env names v x).length

theorem isDir_of_mem_linkings {e : Ptr × Ptr} (he : e ∈ linkings env names v) :
    e.2 ≠ NULL ∧ v.heap.isDir e.2 := by
  have hentry : ∀ p i, e ∈ v.heap.entry p i → e.2 ≠ NULL ∧ v.heap.isDir e.2 := by
    intro p i hm
    rw [Heap.entry] at hm
    split_ifs at hm with hd
    · rw [List.mem_singleton.mp hm]
      exact hd.2
    · cases hm
  have helim : ∀ (o : Option Ptr) (f : Ptr → List (Ptr × Ptr)), e ∈ o.elim [] f →
      ∃ p, e ∈ f p := by
    intro o f hm
    cases o with
    | none => cases hm
    | some p => exact ⟨p, hm⟩
  rcases List.mem_append.mp he with he | he
  · obtain ⟨x, _, hm⟩ := List.mem_flatMap.mp he
    obtain ⟨p, hm⟩ := helim _ _ hm
    exact hentry x p hm
  · obtain ⟨c, _, hm⟩ := List.mem_flatMap.mp he
    obtain ⟨p, hm⟩ := helim _ _ hm
    exact hentry p c.1 hm

theorem ownersOf_entry (h : Heap) (x y i : Ptr) :
    ownersOf (h.entry y i) x = if y = x ∧ h.isDir x ∧ i ≠ NULL ∧ h.isDir i then [i] else [] := by
  by_cases hy : y = x
  · subst hy
    rw [Heap.entry]
    split_ifs with hd hd' hd'
    · simp [ownersOf]
    · exact absurd ⟨rfl, hd⟩ hd'
    · exact absurd hd'.2 hd
    · rfl
  · rw [if_neg (fun hn => hy hn.1), Heap.entry]
    split_ifs
    · simp [ownersOf, hy]
    · rfl

theorem parentDir_eq_some {x d : Ptr} : parentDir env v x = some d ↔
    newest env v.heap (parentClosure env v) (v.heap.obj x).parentDiNumber = some d ∧
      v.heap.isDir d := by
  rw [parentDir, Option.filter_eq_some_iff, decide_eq_true_eq]

theorem ownersOf_adoption (hn : NULL ∉ parentClosure env v) {x : Ptr} (hx : v.heap.isDir x)
    (y : Ptr) : ownersOf (adoption env v (parentClosure env v) y) x
      = if y = x then (parentDir env v x).elim [] (fun p => [p]) else [] := by
  unfold adoption
  by_cases hy : y = x
  · subst hy
    rw [if_pos rfl, parentDir]
    cases hl : newest env v.heap (parentClosure env v) (v.heap.obj y).parentDiNumber with
    | none => rfl
    | some p =>
      have hne : p ≠ NULL := by
        rintro rfl
        exact hn (newest_mem hl).1
      rw [Option.filter_some, Option.elim_some, ownersOf_entry]
      by_cases hp : v.heap.isDir p
      · rw [if_pos ⟨rfl, hx, hne, hp⟩, if_pos (decide_eq_true hp)]
        rfl
      · rw [if_neg (fun h => hp h.2.2.2), if_neg (by simpa using hp)]
        rfl
  · rw [if_neg hy]
    cases newest env v.heap (parentClosure env v) (v.heap.obj y).parentDiNumber with
    | none => rfl
    | some p => rw [Option.elim_some, ownersOf_entry, if_neg (fun h => hy h.1)]

/-- In each round that visits it a directory is entered where its `idotdot` leads. -/
theorem ownersOf_adoptions (hn : NULL ∉ parentClosure env v) {x : Ptr} (hx : v.heap.isDir x)
    (l : List Ptr) : ownersOf (l.flatMap (adoption env v (parentClosure env v))) x
      = (parentDir env v x).elim [] (List.replicate (l.count x)) := by
  rw [ownersOf_flatMap]
  induction l with
  | nil => cases parentDir env v x <;> rfl
  | cons y l ih =>
    rw [List.flatMap_cons, ih, ownersOf_adoption hn hx, List.count_cons]
    by_cases hy : y = x
    · rw [if_pos hy, if_pos (beq_iff_eq.mpr hy)]
      cases parentDir env v x with
      | none => rfl
      | some p => exact List.replicate_succ.symm
    · rw [if_neg hy, if_neg (by simpa using hy)]
      rfl

/-- Each name enters it in the directory that the name stands in. -/
theorem ownersOf_mentions {find : ℕ → Option Ptr} {cs : List (Ptr × InodeName)} {x : Ptr}
    (hx : v.heap.isDir x) (hcs : ∀ c ∈ cs, c.1 ≠ NULL ∧ v.heap.isDir c.1) :
    ownersOf (cs.flatMap (mention v.heap find)) x
      = (cs.filter (fun c => target find c = some x)).map Prod.fst := by
  rw [ownersOf_flatMap]
  induction cs with
  | nil => rfl
  | cons c cs ih =>
    obtain ⟨hne, hd⟩ := hcs c (by simp)
    rw [List.flatMap_cons, ih (fun k hk => hcs k (List.mem_cons_of_mem c hk)), mention]
    cases ht : target find c with
    | none =>
      rw [List.filter_cons_of_neg (by simp [ht])]
      rfl
    | some y =>
      rw [Option.elim_some, ownersOf_entry]
      by_cases hy : y = x
      · rw [if_pos ⟨hy, hx, hne, hd⟩, List.filter_cons_of_pos (by simp [ht, hy])]
        rfl
      · rw [if_neg (fun h => hy h.1), List.filter_cons_of_neg (by simp [ht, hy])]
        rfl

theorem ownersOf_linkings {dirNames : Ptr → List InodeName} (hn : NULL ∉ parentClosure env v)
    (hr : NULL ∉ recovered env (listing v.heap dirNames) v) {x : Ptr} (hx : v.heap.isDir x) :
    ownersOf (linkings env (listing v.heap dirNames) v) x
      = (parentDir env v x).elim [] (List.replicate ((parentClosure env v).count x)) ++
        (mentions env (listing v.heap dirNames) v x).map Prod.fst := by
  have hcs : ∀ c ∈ (recovered env (listing v.heap dirNames) v).flatMap
      (claims (listing v.heap dirNames)), c.1 ≠ NULL ∧ v.heap.isDir c.1 := by
    intro c hc
    obtain ⟨dir, hdir, hc⟩ := List.mem_flatMap.mp hc
    obtain ⟨e, he, rfl⟩ := List.mem_map.mp hc
    refine ⟨?_, isDir_of_mem_listing he⟩
    rintro rfl
    exact hr hdir
  rw [linkings, ownersOf_append, ownersOf_adoptions hn hx, ownersOf_mentions hx hcs, mentions]

theorem length_owners {dirNames : Ptr → List InodeName} (hn : NULL ∉ parentClosure env v)
    (hr : NULL ∉ recovered env (listing v.heap dirNames) v) {x : Ptr} (hx : v.heap.isDir x) :
    (ownersOf (linkings env (listing v.heap dirNames) v) x).length
      = timesLinked env (listing v.heap dirNames) v x := by
  rw [ownersOf_linkings hn hr hx, List.length_append, List.length_map, timesLinked]
  cases parentDir env v x with
  | none => rfl
  | some p => rw [Option.elim_some, List.length_replicate]; rfl

/-- The last directory it is entered in is the claimant. -/
theorem last_owner_iff {dirNames : Ptr → List InodeName} (hn : NULL ∉ parentClosure env v)
    (hr : NULL ∉ recovered env (listing v.heap dirNames) v) {x d : Ptr} (hx : v.heap.isDir x)
    (hd : v.heap.isDir d) :
    (ownersOf (linkings env (listing v.heap dirNames) v) x).getLast? = some d ↔
      claimant env (listing v.heap dirNames) v x = some d := by
  have hlast : lastFor (target (newest env v.heap (recovered env (listing v.heap dirNames) v)))
      ((recovered env (listing v.heap dirNames) v).flatMap (claims (listing v.heap dirNames))) x
        = (mentions env (listing v.heap dirNames) v x).getLast? := rfl
  rw [ownersOf_linkings hn hr hx, List.getLast?_append, List.getLast?_map, claimant, hlast]
  cases (mentions env (listing v.heap dirNames) v x).getLast? with
  | some c => rfl
  | none =>
    have hadopt : adopted env v (parentClosure env v) x = some d ↔ parentDir env v x = some d := by
      have hfile : ¬ (v.heap.obj d).kind = .file := by
        rw [show (v.heap.obj d).kind = .dir from hd]
        decide
      rw [parentDir_eq_some, adopted, if_pos hx, Option.filter_eq_some_iff, decide_eq_true_eq]
      tauto
    show ((parentDir env v x).elim [] _).getLast? = some d ↔ _
    by_cases hm : x ∈ parentClosure env v
    · rw [if_pos hm, hadopt]
      cases parentDir env v x with
      | none => simp
      | some p =>
        rw [Option.elim_some, List.getLast?_replicate, if_neg (List.count_pos_iff.mpr hm).ne']
    · rw [if_neg hm, List.count_eq_zero.mpr hm]
      cases parentDir env v x <;> simp

/-- It is entered once, with the claimant, exactly if it is linked once at most. -/
theorem once_iff {dirNames : Ptr → List InodeName} (hn : NULL ∉ parentClosure env v)
    (hr : NULL ∉ recovered env (listing v.heap dirNames) v) {x : Ptr} (hx : v.heap.isDir x) :
    (∀ d, v.heap.isDir d → d ≠ NULL →
      (ownersOf (linkings env (listing v.heap dirNames) v) x).count d
        = if claimant env (listing v.heap dirNames) v x = some d then 1 else 0) ↔
      timesLinked env (listing v.heap dirNames) v x ≤ 1 := by
  have howners : ∀ b ∈ ownersOf (linkings env (listing v.heap dirNames) v) x,
      b ∈ {d | d ≠ NULL ∧ v.heap.isDir d} :=
    fun b hb => isDir_of_mem_linkings (mem_ownersOf.mp hb)
  rw [← length_owners hn hr hx, ← count_eq_last_iff howners]
  constructor
  · intro h d hd
    rw [h d hd.2 hd.1]
    exact if_congr (last_owner_iff hn hr hx hd.2).symm rfl rfl
  · intro h d hd hne
    rw [h d ⟨hne, hd⟩]
    exact if_congr (last_owner_iff hn hr hx hd) rfl rfl

theorem null_not_mem_closures (names : Ptr → List InodeName) (hv : v.Indexed env)
    (hunlinked : ∀ p, (v.heap.obj p).parent = NULL) :
    NULL ∉ parentClosure env v ∧ NULL ∉ recovered env names v := by
  obtain ⟨w, u, hw, hu, hin, _⟩ := parentOf_recovered names hv hunlinked
  obtain ⟨hwrec, hurec, hwin⟩ := recovering_of_run hv hw hu
  rw [← hwin, ← hin]
  exact ⟨hwrec.indexed.inodes, hurec.indexed.inodes⟩

/-! ### Child lists and parents -/

/-- Down one level: from a directory to one of its siblings, as the source calls them. -/
def Below (h : Heap) (d x : Ptr) : Prop :=
  d ≠ NULL ∧ h.isDir d ∧ h.isDir x ∧ x ∈ h.siblings d

def Above (h : Heap) (x d : Ptr) : Prop :=
  d ≠ NULL ∧ h.isDir d ∧ h.isDir x ∧ (h.obj x).parent = d

/-- After both functions a directory stands once among the siblings of its parent and
nowhere else, and a walk down the siblings comes by the directories that the walk up
the parents comes by. -/
def SiblingsAgree (env : Env) (names : Ptr → List InodeName) (v : InodeVector) : Prop :=
  ∃ w u, findDirectoryParents env v = some w ∧ findFileParentsAndNames env names w = some u ∧
    (∀ x d, u.heap.isDir x → u.heap.isDir d → d ≠ NULL →
      (u.heap.siblings d).count x = if (u.heap.obj x).parent = d then 1 else 0) ∧
    ∀ d x, Relation.TransGen (Below u.heap) d x ↔ Relation.TransGen (Above u.heap) x d

theorem walks_of_count {h : Heap} (hcount : ∀ x d, h.isDir x → h.isDir d → d ≠ NULL →
    (h.siblings d).count x = if (h.obj x).parent = d then 1 else 0) (d x : Ptr) :
    Relation.TransGen (Below h) d x ↔ Relation.TransGen (Above h) x d := by
  have hstep : ∀ a b, Below h a b ↔ Above h b a := by
    intro a b
    refine and_congr_right (fun hne => and_congr_right (fun ha => and_congr_right (fun hb => ?_)))
    rw [← List.count_pos_iff, hcount b a hb ha hne]
    split_ifs with hp <;> simp [hp]
  have hswap : Below h = Function.swap (Above h) := by
    funext a b
    exact propext (hstep a b)
  rw [hswap, Relation.transGen_swap]

/-- **Child lists agree with the parents exactly if no directory is linked twice.** -/
theorem siblingsAgree_iff (dirNames : Ptr → List InodeName) (hv : v.Indexed env)
    (hunlinked : ∀ p, (v.heap.obj p).parent = NULL) (hempty : ∀ p, v.heap.siblings p = []) :
    SiblingsAgree env (listing v.heap dirNames) v ↔
      ∀ x, v.heap.isDir x → timesLinked env (listing v.heap dirNames) v x ≤ 1 := by
  obtain ⟨w, u, hw, hu, hrec, hparent, hsiblings⟩ :=
    siblings_recovered (listing v.heap dirNames) hv hunlinked
  obtain ⟨hn, hr⟩ := null_not_mem_closures (listing v.heap dirNames) hv hunlinked
  have hdirs : ∀ p, u.heap.isDir p ↔ v.heap.isDir p := by
    intro p
    rw [Heap.isDir, Heap.isDir, hrec.frame.kind]
  have hcount : ∀ x d, (u.heap.siblings d).count x
      = (ownersOf (linkings env (listing v.heap dirNames) v) x).count d := by
    intro x d
    rw [hsiblings, count_foldl_enlist, hempty, List.count_nil, Nat.zero_add, count_ownersOf]
  have hclaim : ∀ x d, d ≠ NULL → ((u.heap.obj x).parent = d ↔
      claimant env (listing v.heap dirNames) v x = some d) := by
    intro x d hne
    rw [← hparent, Heap.parentOf_eq_some]
    exact ⟨fun h => ⟨h ▸ hne, h⟩, fun h => h.2⟩
  have honce : ∀ x, v.heap.isDir x →
      ((∀ d, v.heap.isDir d → d ≠ NULL →
        (u.heap.siblings d).count x = if (u.heap.obj x).parent = d then 1 else 0) ↔
        timesLinked env (listing v.heap dirNames) v x ≤ 1) := by
    intro x hx
    rw [← once_iff hn hr hx]
    refine forall_congr' (fun d => imp_congr_right (fun _ => imp_congr_right (fun hne => ?_)))
    rw [hcount]
    exact Eq.congr_right (if_congr (hclaim x d hne) rfl rfl)
  constructor
  · rintro ⟨w', u', hw', hu', hagree, _⟩ x hx
    obtain rfl := Option.some.inj (hw.symm.trans hw')
    obtain rfl := Option.some.inj (hu.symm.trans hu')
    exact (honce x hx).mp (fun d hd => hagree x d ((hdirs x).mpr hx) ((hdirs d).mpr hd))
  · intro h
    have hagree : ∀ x d, u.heap.isDir x → u.heap.isDir d → d ≠ NULL →
        (u.heap.siblings d).count x = if (u.heap.obj x).parent = d then 1 else 0 := by
      intro x d hx hd
      have hxv := (hdirs x).mp hx
      exact (honce x hxv).mpr (h x hxv) d ((hdirs d).mp hd)
    exact ⟨w, u, hw, hu, hagree, walks_of_count hagree⟩

/-! ### An example -/

/-- Directory 2, the root, and directory 3, with the root as the parent of both. -/
def rootAndHome : Env :=
  Device.zeroed
    { twoDirs.device with
      data := fun k =>
        if k % 512 = 8 then UInt8.ofNat (2 + k / 512) else if k % 512 = 244 then 2
        else twoDirs.device.data k }

def bothDirs : InodeVector :=
  ((start false).addBuilt addInode (built rootAndHome 0)).addBuilt addInode (built rootAndHome 512)

theorem sound_bothDirs : bothDirs.Sound rootAndHome :=
  ((sound_start rootAndHome false).step
    (.addInode (built rootAndHome 0) (fun _ hino => built_new hino))).step
    (.addInode (built rootAndHome 512) (fun _ hino => built_new hino))

theorem indexed_bothDirs : bothDirs.Indexed rootAndHome :=
  sound_bothDirs.indexed (by decide) (by decide)

theorem siblings_addBuilt {push : InodeVector → Ptr → InodeVector}
    {sel oth : InodeVector → List Ptr} (hp : Pushes push sel oth)
    (hv : ∀ p, v.heap.siblings p = []) (bo : ℕ) (p : Ptr) :
    (v.addBuilt push (built env bo)).heap.siblings p = [] :=
  forall_obj_addBuilt (P := fun ino => ino.siblings = []) hp (fun _ _ _ => rfl) hv bo p

theorem siblings_bothDirs (p : Ptr) : bothDirs.heap.siblings p = [] :=
  siblings_addBuilt pushes_addInode (siblings_addBuilt pushes_addInode (fun _ => rfl) 0) 512 p

theorem siblingsAgree_bothDirs :
    SiblingsAgree rootAndHome (listing bothDirs.heap (fun _ => [])) bothDirs := by
  refine (siblingsAgree_iff _ indexed_bothDirs sound_bothDirs.unlinked siblings_bothDirs).mpr ?_
  intro x _
  have hclosure : parentClosure rootAndHome bothDirs = [1, 2] := by decide
  have hmentions : mentions rootAndHome (listing bothDirs.heap (fun _ => [])) bothDirs x = [] := by
    rw [mentions, List.filter_eq_nil_iff]
    intro c hc
    obtain ⟨dir, _, hc⟩ := List.mem_flatMap.mp hc
    obtain ⟨e, he, _⟩ := List.mem_map.mp hc
    unfold listing at he
    split at he <;> cases he
  have hcount : [1, 2].count x ≤ 1 := List.nodup_iff_count_le_one.mp (by decide) x
  rw [timesLinked, hmentions, hclosure]
  split_ifs
  · exact hcount
  · exact Nat.zero_le 1

def homeNames (p : Ptr) : List InodeName := if p = 1 then [⟨"home".toList, 3⟩] else []

/-- **A directory that its parent lists stands there twice**, for its own `idotdot` and
for the entry. -/
theorem not_siblingsAgree_bothDirs :
    ¬ SiblingsAgree rootAndHome (listing bothDirs.heap homeNames) bothDirs := by
  intro h
  have honce := (siblingsAgree_iff homeNames indexed_bothDirs sound_bothDirs.unlinked
    siblings_bothDirs).mp h 2 (by decide)
  exact absurd honce (by decide)

end Recoverer

end Jfsrec
