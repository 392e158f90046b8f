import Jfsrec.Selection
import Mathlib.Data.List.Nodup

/-!
# Postprocessing

`filter_inostamps`, `detect_ino_extents`, `remove_unallocated` of
`inodescanner.cpp`, and `remove_dupes` again.  They read dinodes through the
cache, mark objects and remove what is marked or unmarked; each of them is shown
to be the selection of `Jfsrec.Selection` that bears its name.
-/

namespace Jfsrec

open Lib

namespace InodeVector

/-! ### The stages -/

/-- `++inostamps[get_dinode()->di_inostamp]; free_dinode();` -/
def countInostamp (env : Env) (s : Std.TreeMap ℕ ℕ × Heap) (p : Ptr) : Std.TreeMap ℕ ℕ × Heap :=
  let (d, h) := s.2.getDinode env p
  (s.1.insert d.diInostamp (s.1.getD d.diInostamp 0 + 1), h.freeDinode p)

/-- A loop body that looks at the dinode of an inode, marks or unmarks the inode
or leaves the mark as it is, and frees the dinode. -/
def markBy (env : Env) (verdict : Dinode → Option Bool) (h : Heap) (p : Ptr) : Heap :=
  let (d, h) := h.getDinode env p
  let h := match verdict d with
    | some true => h.mark p
    | some false => h.unmark p
    | none => h
  h.freeDinode p

def filterInostamps (env : Env) (v : InodeVector) : InodeVector :=
  let (inostamps, h) := v.inodes.foldl (countInostamp env) (∅, v.heap)
  let v := { v with heap := h }
  match dominantInostamp inostamps with
  | none => v
  | some ismi =>
      let v := v.unmarkAll
      let h := v.inodes.foldl
        (markBy env (fun d => if d.diInostamp ≠ ismi then some true else none)) v.heap
      { v with heap := h }.removeMarked

/-- The forward `do`-`while` loop of `detect_ino_extents`; `num_consec` stops it
after 32 rounds. -/
def countForward (env : Env) (ps : List Ptr) : ℕ → ℕ → ℕ → Heap → ℕ × Heap
  | 0, _, numConsec, h => (numConsec, h)
  | fuel + 1, j, numConsec, h =>
      let (d, h) := h.getDinode env (ps.getD j NULL)
      let lastDin : ℤ := d.diNumber
      let lastBo : ℤ := (h.obj (ps.getD j NULL)).byteOffset
      let numConsec := numConsec + 1
      let j := j + 1
      if j < ps.length then
        let (d, h) := h.getDinode env (ps.getD j NULL)
        if (d.diNumber : ℤ) = lastDin + 1
            ∧ ((h.obj (ps.getD j NULL)).byteOffset : ℤ) = lastBo + 512 ∧ numConsec < 32 then
          countForward env ps fuel j numConsec h
        else (numConsec, h)
      else (numConsec, h)

/-- The backward loop, where `num_consec` goes on from the forward one. -/
def countBackward (env : Env) (ps : List Ptr) : ℕ → ℕ → ℕ → Heap → ℕ × Heap
  | 0, _, numConsec, h => (numConsec, h)
  | fuel + 1, j, numConsec, h =>
      let (d, h) := h.getDinode env (ps.getD j NULL)
      let lastDin : ℤ := d.diNumber
      let lastBo : ℤ := (h.obj (ps.getD j NULL)).byteOffset
      let numConsec := numConsec + 1
      -- from position 0 the source goes to -1, which fails `j>0` as well
      let j := j - 1
      if j > 0 then
        let (d, h) := h.getDinode env (ps.getD j NULL)
        if (d.diNumber : ℤ) = lastDin - 1
            ∧ ((h.obj (ps.getD j NULL)).byteOffset : ℤ) = lastBo - 512 ∧ numConsec < 32 then
          countBackward env ps fuel j numConsec h
        else (numConsec, h)
      else (numConsec, h)

def extentStep (env : Env) (ps : List Ptr) (h : Heap) (i : ℕ) : Heap :=
  let h := if i > 33 then h.freeDinode (ps.getD (i - 33) NULL) else h
  let (numConsec, h) := countForward env ps 32 i 0 h
  let (numConsec, h) := countBackward env ps 32 i numConsec h
  let h := if numConsec ≥ 32 then h.mark (ps.getD i NULL) else h
  h.freeDinode (ps.getD i NULL)

def detectInoExtents (env : Env) (v : InodeVector) : InodeVector :=
  let h := v.inodes.foldl Heap.unmark v.heap
  let h := (List.range v.inodes.length).foldl (extentStep env v.inodes) h
  let h := v.inodes.foldl Heap.freeDinode h
  { v with heap := h }.removeUnmarked

def removeUnallocated (env : Env) (v : InodeVector) : InodeVector :=
  let h := v.inodes.foldl (markBy env (fun d => some (d.diNlink == 0))) v.heap
  { v with heap := h }.removeMarked

variable {env : Env} {h h' : Heap} {v : InodeVector}

/-! ### Inostamps -/

theorem foldl_countInostamp (ps : List Ptr) {m : Std.TreeMap ℕ ℕ} (hc : h.Coherent env) :
    Heap.CacheSame env h (ps.foldl (countInostamp env) (m, h)).2 ∧
      (ps.foldl (countInostamp env) (m, h)).1
        = (ps.map (fun p => (h.dinodeOf env p).diInostamp)).foldl
          (fun m s => m.insert s (m.getD s 0 + 1)) m := by
  induction ps generalizing h m with
  | nil => exact ⟨.refl, rfl⟩
  | cons p ps ih =>
    obtain ⟨h', hget, hs'⟩ := Heap.getDinode_eq hc p
    have hs := hs'.trans (Heap.cacheSame_freeDinode (p := p))
    obtain ⟨h1, h2⟩ := ih (m := m.insert (h.dinodeOf env p).diInostamp
      (m.getD (h.dinodeOf env p).diInostamp 0 + 1)) (hs.coherent hc)
    simp only [hs.dinodeOf] at h2
    rw [List.foldl_cons, List.map_cons, List.foldl_cons, countInostamp]
    simp only [hget]
    exact ⟨hs.trans h1, h2⟩

/-! ### Marking by dinode -/

theorem same_markBy (verdict : Dinode → Option Bool) (h : Heap) (p : Ptr) :
    Heap.Same env h (markBy env verdict h p) := by
  have hg : Heap.Same env h (h.getDinode env p).2 := Heap.cacheSame_getDinode.toSame
  rw [markBy]
  refine .trans ?_ Heap.cacheSame_freeDinode.toSame
  split
  · exact hg.trans Heap.same_mark
  · exact hg.trans Heap.same_unmark
  · exact hg

theorem marked_markBy (verdict : Dinode → Option Bool) (hc : h.Coherent env) (p q : Ptr) :
    (markBy env verdict h p).marked q
      = if q = p then (verdict (h.dinodeOf env p)).getD (h.marked p) else h.marked q := by
  obtain ⟨h', hget, hs⟩ := Heap.getDinode_eq hc p
  rw [markBy]
  simp only [hget, Heap.marked_freeDinode]
  cases verdict (h.dinodeOf env p) with
  | none =>
    rw [hs.marked]
    by_cases hq : q = p <;> simp [hq]
  | some b =>
    cases b <;> simp only [Heap.marked_mark, Heap.marked_unmark, hs.marked, Function.update_apply,
      Option.getD_some]

theorem marked_foldl_markBy (verdict : Dinode → Option Bool) (ps : List Ptr) (hc : h.Coherent env)
    (q : Ptr) : (ps.foldl (markBy env verdict) h).marked q
      = if q ∈ ps then (verdict (h.dinodeOf env q)).getD (h.marked q) else h.marked q := by
  induction ps generalizing h with
  | nil => simp
  | cons p ps ih =>
    have hs : Heap.Same env h (markBy env verdict h p) := same_markBy verdict h p
    rw [List.foldl_cons, ih (hs.coherent hc), hs.dinodeOf, marked_markBy verdict hc]
    by_cases hqp : q = p
    · subst hqp
      cases verdict (h.dinodeOf env q) <;> simp
    · simp [hqp]

/-! ### The stages select -/

theorem filterInostamps_selects (hv : v.Ready env) :
    Selects env keepInostamp v (v.filterInostamps env) := by
  obtain ⟨hs, hm⟩ := foldl_countInostamp v.inodes (m := ∅) hv.coherent
  have hstamps : (v.inodes.foldl (countInostamp env) (∅, v.heap)).1
      = countInostamps ((v.views env).map (fun x => x.dinode.diInostamp)) := by
    rw [hm, views, List.map_map]
    rfl
  rw [filterInostamps]
  simp only [hstamps]
  cases hd : dominantInostamp
      (countInostamps ((v.views env).map (fun x => x.dinode.diInostamp))) with
  | none =>
    have hkeep : keepInostamp (v.views env) = fun _ => true := by
      funext i
      rw [keepInostamp, hd]
    exact ⟨hs.toSame, by rw [hkeep, keepAt_true], by simp [hkeep, keepAt_false]⟩
  | some stamp =>
    have hu : Heap.Same env v.heap (v.inodes.foldl Heap.unmark
        (v.inodes.foldl (countInostamp env) (∅, v.heap)).2) :=
      hs.toSame.trans (same_foldl (fun _ _ => Heap.same_unmark) _ _)
    refine selects_removeWhere _ (hu.trans (same_foldl (same_markBy _) _ _)) hv.notNull ?_
    intro i hi
    refine (marked_foldl_markBy _ v.inodes (hu.coherent hv.coherent) v.inodes[i]).trans ?_
    rw [if_pos (List.getElem_mem hi), hu.dinodeOf, marked_foldl_unmark, keepInostamp, hd]
    simp only [views_getElem? hi, Option.all_some]
    by_cases hst : (v.heap.dinodeOf env v.inodes[i]).diInostamp = stamp
    · simp [Heap.view, hst]
    · simp [Heap.view, hst]

theorem removeUnallocated_selects (hv : v.Ready env) :
    Selects env keepAllocated v (v.removeUnallocated env) := by
  refine selects_removeWhere _ (same_foldl (same_markBy _) _ _) hv.notNull ?_
  intro i hi
  refine (marked_foldl_markBy _ v.inodes hv.coherent v.inodes[i]).trans ?_
  rw [if_pos (List.getElem_mem hi), keepAllocated, views_getElem? hi]
  simp [Heap.view, bne]

/-! ### Extents -/

theorem map_view_getElem? {ps : List Ptr} {j : ℕ} (hj : j < ps.length) :
    (ps.map (h.view env))[j]? = some (h.view env (ps.getD j NULL)) := by
  rw [List.getElem?_map, List.getD_eq_getElem?_getD, List.getElem?_eq_getElem hj, Option.map_some,
    Option.getD_some]

theorem continues_iff (env : Env) (h : Heap) {ps : List Ptr} {j : ℕ} (hj : j + 1 < ps.length) :
    continues (ps.map (h.view env)) j = true ↔
      (h.dinodeOf env (ps.getD (j + 1) NULL)).diNumber
          = (h.dinodeOf env (ps.getD j NULL)).diNumber + 1 ∧
        (h.obj (ps.getD (j + 1) NULL)).byteOffset = (h.obj (ps.getD j NULL)).byteOffset + 512 := by
  rw [continues, map_view_getElem? (Nat.lt_of_succ_lt hj), map_view_getElem? hj]
  simp [Heap.view]

theorem continues_end {l : List View} {j : ℕ} (hj : l.length ≤ j + 1) : continues l j = false := by
  rw [continues, List.getElem?_eq_none hj]
  split
  · rename_i hnone
    cases hnone
  · rfl

theorem countForward_spec {ps : List Ptr} : ∀ (fuel j n : ℕ) {h : Heap},
    h.Coherent env → j < ps.length →
    (countForward env ps fuel j n h).1
        = countWhile 32 (continues (ps.map (h.view env))) Nat.succ fuel j n ∧
      Heap.CacheSame env h (countForward env ps fuel j n h).2 := by
  intro fuel
  induction fuel with
  | zero => intro j n h _ _; exact ⟨rfl, .refl⟩
  | succ fuel ih =>
    intro j n h hc hj
    obtain ⟨h1, hget1, hs1⟩ := Heap.getDinode_eq hc (ps.getD j NULL)
    rw [countForward, countWhile]
    simp only [hget1]
    by_cases hj1 : j + 1 < ps.length
    · obtain ⟨h2, hget2, hs2⟩ := Heap.getDinode_eq (hs1.coherent hc) (ps.getD (j + 1) NULL)
      have hs := hs1.trans hs2
      simp only [if_pos hj1, hget2, hs1.dinodeOf, hs1.byteOffset, hs.byteOffset]
      by_cases hgo : continues (ps.map (h.view env)) j = true ∧ n + 1 < 32
      · obtain ⟨hdin, hbo⟩ := (continues_iff env h hj1).mp hgo.1
        obtain ⟨h3, h4⟩ := ih (j + 1) (n + 1) (hs.coherent hc) hj1
        rw [if_pos hgo, if_pos ⟨by omega, by omega, hgo.2⟩]
        rw [hs.toSame.view] at h3
        exact ⟨h3, hs.trans h4⟩
      · rw [if_neg hgo, if_neg (fun hcond => hgo ⟨(continues_iff env h hj1).mpr
          ⟨by omega, by omega⟩, hcond.2.2⟩)]
        exact ⟨rfl, hs⟩
    · rw [if_neg hj1, if_neg (fun hgo => by
        rw [continues_end (by simpa using hj1)] at hgo
        exact Bool.false_ne_true hgo.1)]
      exact ⟨rfl, hs1⟩

theorem countBackward_spec {ps : List Ptr} : ∀ (fuel j n : ℕ) {h : Heap},
    h.Coherent env → j < ps.length →
    (countBackward env ps fuel j n h).1
        = countWhile 32 (continuesBack (ps.map (h.view env))) Nat.pred fuel j n ∧
      Heap.CacheSame env h (countBackward env ps fuel j n h).2 := by
  intro fuel
  induction fuel with
  | zero => intro j n h _ _; exact ⟨rfl, .refl⟩
  | succ fuel ih =>
    intro j n h hc hj
    obtain ⟨h1, hget1, hs1⟩ := Heap.getDinode_eq hc (ps.getD j NULL)
    rw [countBackward, countWhile]
    simp only [hget1]
    by_cases hj1 : j - 1 > 0
    · obtain ⟨h2, hget2, hs2⟩ := Heap.getDinode_eq (hs1.coherent hc) (ps.getD (j - 1) NULL)
      have hs := hs1.trans hs2
      -- the step from `j` back to `j - 1` is the step on from `j - 1`
      have hback : continuesBack (ps.map (h.view env)) j = true ↔
          (h.dinodeOf env (ps.getD j NULL)).diNumber
              = (h.dinodeOf env (ps.getD (j - 1) NULL)).diNumber + 1 ∧
            (h.obj (ps.getD j NULL)).byteOffset
              = (h.obj (ps.getD (j - 1) NULL)).byteOffset + 512 := by
        have hcont := continues_iff env h (show j - 1 + 1 < ps.length by omega)
        rw [show j - 1 + 1 = j by omega] at hcont
        rw [continuesBack, decide_eq_true hj1, Bool.true_and, hcont]
      simp only [if_pos hj1, hget2, hs1.dinodeOf, hs1.byteOffset, hs.byteOffset]
      by_cases hgo : continuesBack (ps.map (h.view env)) j = true ∧ n + 1 < 32
      · obtain ⟨hdin, hbo⟩ := hback.mp hgo.1
        obtain ⟨h3, h4⟩ := ih (j - 1) (n + 1) (hs.coherent hc) (by omega)
        rw [if_pos hgo, if_pos ⟨by omega, by omega, hgo.2⟩]
        rw [hs.toSame.view] at h3
        exact ⟨h3, hs.trans h4⟩
      · rw [if_neg hgo, if_neg (fun hcond => hgo ⟨hback.mpr ⟨by omega, by omega⟩, hcond.2.2⟩)]
        exact ⟨rfl, hs⟩
    · rw [if_neg hj1, if_neg (fun hgo => by
        rw [continuesBack, decide_eq_false hj1, Bool.false_and] at hgo
        exact Bool.false_ne_true hgo.1)]
      exact ⟨rfl, hs1⟩

/-- One round marks the inode at `i` if it belongs to an extent. -/
theorem extentStep_spec {ps : List Ptr} {i : ℕ} (hc : h.Coherent env) (hi : i < ps.length) :
    Heap.Same env h (extentStep env ps h i) ∧ (extentStep env ps h i).marked
      = if keepExtent (ps.map (h.view env)) i = true then Function.update h.marked ps[i] true
        else h.marked := by
  obtain ⟨h0, hh0⟩ : ∃ h0, h0 = if i > 33 then h.freeDinode (ps.getD (i - 33) NULL) else h :=
    ⟨_, rfl⟩
  have hs0 : Heap.CacheSame env h h0 := by
    rw [hh0]
    split
    · exact Heap.cacheSame_freeDinode
    · exact .refl
  have hc0 := hs0.coherent hc
  obtain ⟨hf, hs1⟩ := countForward_spec 32 i 0 hc0 hi
  rcases hforward : countForward env ps 32 i 0 h0 with ⟨n1, h1⟩
  rw [hforward] at hf hs1
  obtain ⟨hb, hs2⟩ := countBackward_spec 32 i n1 (hs1.coherent hc0) hi
  rcases hbackward : countBackward env ps 32 i n1 h1 with ⟨n2, h2⟩
  rw [hbackward] at hb hs2
  have hs := (hs0.trans hs1).trans hs2
  have hcount : n2 = extentCount (ps.map (h.view env)) i := by
    simp only at hf hb
    rw [hb, hf, hs1.toSame.view, hs0.toSame.view, extentCount]
  have hp : ps.getD i NULL = ps[i] := by
    rw [List.getD_eq_getElem?_getD, List.getElem?_eq_getElem hi, Option.getD_some]
  rw [extentStep, ← hh0]
  simp only [hforward, hbackward, hp, hcount, Heap.marked_freeDinode]
  rw [keepExtent]
  by_cases h32 : 32 ≤ extentCount (ps.map (h.view env)) i
  · rw [if_pos h32, if_pos (decide_eq_true h32), Heap.marked_mark, hs.marked]
    exact ⟨(hs.toSame.trans Heap.same_mark).trans Heap.cacheSame_freeDinode.toSame, rfl⟩
  · rw [if_neg h32, if_neg (by simpa using h32), hs.marked]
    exact ⟨hs.toSame.trans Heap.cacheSame_freeDinode.toSame, rfl⟩

theorem same_foldl_extentStep {ps : List Ptr} (hc : h.Coherent env) {n : ℕ} (hn : n ≤ ps.length) :
    Heap.Same env h ((List.range n).foldl (extentStep env ps) h) := by
  induction n with
  | zero => exact .refl
  | succ n ih =>
    have hs := ih (by omega)
    rw [List.range_succ, List.foldl_append, List.foldl_cons, List.foldl_nil]
    exact hs.trans (extentStep_spec (hs.coherent hc) hn).1

/-- After the rounds up to `n`, among the inodes before `n` those of extents are
marked, and the marks of the others are as they were. -/
theorem foldl_extentStep {ps : List Ptr} (hc : h.Coherent env) (hnd : ps.Nodup) {n : ℕ}
    (hn : n ≤ ps.length) :
    ∀ j (hj : j < ps.length), ((List.range n).foldl (extentStep env ps) h).marked ps[j]
      = if j < n ∧ keepExtent (ps.map (h.view env)) j = true then true else h.marked ps[j] := by
  induction n with
  | zero => exact fun j _ => by simp
  | succ n ih =>
    have hm := ih (by omega)
    have hs := same_foldl_extentStep hc (show n ≤ ps.length by omega)
    obtain ⟨_, hm1⟩ := extentStep_spec (i := n) (hs.coherent hc) hn
    rw [List.range_succ, List.foldl_append, List.foldl_cons, List.foldl_nil]
    intro j hj
    rw [hm1, hs.view]
    have hne : j ≠ n → ps[j] ≠ ps[n] := fun hjn he => hjn ((List.Nodup.getElem_inj_iff hnd).mp he)
    by_cases hjn : j = n
    · subst hjn
      by_cases hk : keepExtent (ps.map (h.view env)) j = true
      · simp [hk]
      · simp [hk, hm j hj]
    · have hlt : j < n + 1 ↔ j < n := by omega
      simp only [hlt]
      rw [← hm j hj]
      split
      · rw [Function.update_of_ne (hne hjn)]
      · rfl

theorem detectInoExtents_selects (hv : v.Ready env) :
    Selects env keepExtent v (v.detectInoExtents env) := by
  have hs1 : Heap.Same env v.heap (v.inodes.foldl Heap.unmark v.heap) :=
    same_foldl (fun _ _ => Heap.same_unmark) _ _
  have hs2 := same_foldl_extentStep (hs1.coherent hv.coherent) (Nat.le_refl v.inodes.length)
  have hm := foldl_extentStep (hs1.coherent hv.coherent) hv.nodup (Nat.le_refl _)
  obtain ⟨h, hh⟩ : ∃ h, h = (List.range v.inodes.length).foldl (extentStep env v.inodes)
      (v.inodes.foldl Heap.unmark v.heap) := ⟨_, rfl⟩
  rw [← hh] at hs2 hm
  have hs3 : Heap.CacheSame env h (v.inodes.foldl Heap.freeDinode h) :=
    cacheSame_foldl (fun _ _ => Heap.cacheSame_freeDinode) v.inodes h
  rw [detectInoExtents, ← hh]
  refine selects_removeWhere (fun ino => !ino.isMarked) ((hs1.trans hs2).trans hs3.toSame)
    hv.notNull (fun i hi => ?_)
  refine congrArg (! ·) ?_
  show (v.inodes.foldl Heap.freeDinode h).marked v.inodes[i] = keepExtent (v.views env) i
  rw [hs3.marked, hm i hi, hs1.view, marked_foldl_unmark]
  by_cases hk : keepExtent (v.views env) i = true
  · rw [if_pos ⟨hi, hk⟩, hk]
  · rw [if_neg (fun h => hk h.2)]
    simp [hk]

/-! ### Duplicates -/

theorem keepNewest_iff {ps : List Ptr} {i : ℕ} (hi : i < ps.length) :
    keepNewest (ps.map (h.view env)) i = true ↔
      (∀ q ∈ ps.take i, (h.obj q).diNumber = (h.obj ps[i]).diNumber →
        otime env h q < otime env h ps[i]) ∧
      (∀ q ∈ ps.drop (i + 1), (h.obj q).diNumber = (h.obj ps[i]).diNumber →
        otime env h q ≤ otime env h ps[i]) := by
  rw [keepNewest, List.getElem?_map, List.getElem?_eq_getElem hi, ← List.map_take, ← List.map_drop]
  simp only [Option.map_some, Option.all_some, Bool.and_eq_true, List.all_map, List.all_eq_true,
    Function.comp, decide_eq_true_eq]
  rfl

theorem newest_iff_keepNewest {ps : List Ptr} (hnd : ps.Nodup) {i : ℕ} (hi : i < ps.length) :
    newest env h ps (h.obj ps[i]).diNumber = some ps[i]
      ↔ keepNewest (ps.map (h.view env)) i = true := by
  rw [keepNewest_iff hi]
  obtain ⟨p, hp⟩ : ∃ p, p = ps[i] := ⟨_, rfl⟩
  rw [← hp]
  constructor
  · intro hn
    obtain ⟨before, after, rfl, _, hb, ha⟩ := isNewestIn_of_newest hn
    have hlen : i = before.length := by
      have hlt : before.length < (before ++ p :: after).length := by simp
      have he : (before ++ p :: after)[i] = (before ++ p :: after)[before.length] := by
        rw [← hp]
        simp
      exact (List.Nodup.getElem_inj_iff hnd).mp he
    subst hlen
    simpa using ⟨hb, ha⟩
  · rintro ⟨hb, ha⟩
    have hsplit : ps = ps.take i ++ p :: ps.drop (i + 1) := by
      rw [hp, ← List.drop_eq_getElem_cons hi, List.take_append_drop]
    have hnewest : IsNewestIn env h ps (h.obj p).diNumber p :=
      ⟨ps.take i, ps.drop (i + 1), hsplit, rfl, hb, ha⟩
    exact hnewest.newest_eq

theorem removeDupes_selects (hv : v.Ready env) : Selects env keepNewest v (v.removeDupes env) := by
  obtain ⟨hs, hin, hinv, _⟩ := removeDupes_spec hv.coherent hv.notNull
  have hkeep : ∀ i (hi : i < v.inodes.length),
      decide (v.IsNewest env v.inodes[i]) = keepNewest (v.views env) i := by
    intro i hi
    rw [Bool.eq_iff_iff, decide_eq_true_iff]
    exact newest_iff_keepNewest hv.nodup hi
  refine ⟨hs, ?_, ?_⟩
  · rw [hin]
    exact filter_eq_keepAt hkeep
  · rw [hinv]
    exact congrArg (v.invalidatedInodes ++ ·)
      (filter_eq_keepAt (fun i hi => congrArg (! ·) (hkeep i hi)))

end InodeVector

end Jfsrec
