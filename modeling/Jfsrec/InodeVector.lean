import Jfsrec.Heap
import Mathlib.Data.List.MinMax
import Std.Data.TreeMap

/-!
# InodeVector

`inodevector.cpp`: the valid and the invalidated inodes, and a map from inode
numbers to inodes that is built on demand.  The vectors are in memory and their
counters do not wrap; they are lists here, and the loops over them recursions.

The map is specified by `newest`: among the inodes of the vector with a given
number, the one allocated last, the first of them on ties.
`generateDiNumberIndex_getElem?` says the map holds exactly those, and
`IndexValid` that it does whenever `di_number_index_ok_` says it may be used.
-/

namespace Jfsrec

structure InodeVector where
  heap : Heap
  inodes : List Ptr
  invalidatedInodes : List Ptr
  diNumberIndex : Std.TreeMap ℕ Ptr
  diNumberIndexOk : Bool

namespace InodeVector

def indexStep (env : Env) (s : Std.TreeMap ℕ Ptr × Heap) (p : Ptr) : Std.TreeMap ℕ Ptr × Heap :=
  match s.1[(s.2.obj p).diNumber]? with
  | none => (s.1.insert (s.2.obj p).diNumber p, s.2)
  | some q =>
      let (dq, h) := s.2.getDinode env q
      let (dp, h) := h.getDinode env p
      -- of two identical numbers, use the latest allocated
      if dq.diOtime.lt dp.diOtime then (s.1.insert (h.obj p).diNumber p, h) else (s.1, h)

def generateDiNumberIndex (env : Env) (v : InodeVector) : InodeVector :=
  let s := v.inodes.foldl (indexStep env) (∅, v.heap)
  { v with heap := s.2, diNumberIndex := s.1, diNumberIndexOk := true }

def getByDiNumber (env : Env) (v : InodeVector) (di : ℕ) : Ptr × InodeVector :=
  let v := if v.diNumberIndexOk then v else v.generateDiNumberIndex env
  (v.diNumberIndex[di]?.getD NULL, v)

def getInvalidatedByDiNumber (v : InodeVector) (di : ℕ) : List Ptr :=
  v.invalidatedInodes.filter (fun p => (v.heap.obj p).diNumber == di)

def addInode (v : InodeVector) (i : Ptr) : InodeVector :=
  if v.diNumberIndexOk then
    match v.diNumberIndex[(v.heap.obj i).diNumber]? with
    | none =>
        { v with
          diNumberIndex := v.diNumberIndex.insert (v.heap.obj i).diNumber i
          inodes := v.inodes ++ [i]
          diNumberIndexOk := true }
    | some _ => { v with inodes := v.inodes ++ [i], diNumberIndexOk := false }
  else { v with inodes := v.inodes ++ [i] }

/-- `remove_marked` and `remove_unmarked`: the inodes that `out` picks are
appended to the invalidated ones and replaced by `NULL`, and the `NULL`s are
erased. -/
def removeWhere (out : Inode → Bool) (v : InodeVector) : InodeVector :=
  { v with
    invalidatedInodes := v.invalidatedInodes ++ v.inodes.filter (fun p => out (v.heap.obj p))
    inodes := (v.inodes.map (fun p => if out (v.heap.obj p) then NULL else p)).filter (· ≠ NULL)
    diNumberIndexOk := false }

def removeMarked (v : InodeVector) : InodeVector := v.removeWhere (fun ino => ino.isMarked)

def removeUnmarked (v : InodeVector) : InodeVector := v.removeWhere (fun ino => !ino.isMarked)

def unmarkAll (v : InodeVector) : InodeVector :=
  { v with heap := v.inodes.foldl Heap.unmark v.heap }

def freeDinodes (v : InodeVector) : InodeVector :=
  { v with heap := v.inodes.foldl Heap.freeDinode v.heap }

def removeDupes (env : Env) (v : InodeVector) : InodeVector :=
  let v := v.unmarkAll.generateDiNumberIndex env
  -- the iterator walks the map in the order of the numbers
  { v with heap := (v.diNumberIndex.toList.map Prod.snd).foldl Heap.mark v.heap }.removeUnmarked

/-! ### Folds of heap operations -/

variable {env : Env} {h h' : Heap}

theorem same_foldl {op : Heap → Ptr → Heap} (hop : ∀ h p, Heap.Same env h (op h p)) (ps : List Ptr)
    (h : Heap) : Heap.Same env h (ps.foldl op h) := by
  induction ps generalizing h with
  | nil => exact .refl
  | cons p ps ih => exact (hop h p).trans (ih (op h p))

theorem cacheSame_foldl {op : Heap → Ptr → Heap} (hop : ∀ h p, Heap.CacheSame env h (op h p))
    (ps : List Ptr) (h : Heap) : Heap.CacheSame env h (ps.foldl op h) := by
  induction ps generalizing h with
  | nil => exact .refl
  | cons p ps ih => exact (hop h p).trans (ih (op h p))

theorem marked_foldl_mark (ps : List Ptr) (h : Heap) (q : Ptr) :
    (ps.foldl Heap.mark h).marked q = (decide (q ∈ ps) || h.marked q) := by
  induction ps generalizing h with
  | nil => simp
  | cons p ps ih =>
    rw [List.foldl_cons, ih, Heap.marked_mark, Function.update_apply]
    by_cases hq : q = p <;> simp [hq]

theorem marked_foldl_unmark (ps : List Ptr) (h : Heap) (q : Ptr) :
    (ps.foldl Heap.unmark h).marked q = (!decide (q ∈ ps) && h.marked q) := by
  induction ps generalizing h with
  | nil => simp
  | cons p ps ih =>
    rw [List.foldl_cons, ih, Heap.marked_unmark, Function.update_apply]
    by_cases hq : q = p <;> simp [hq]

/-! ### The newest inode of a number -/

/-- When an inode was created, as the device has it. -/
def otime (env : Env) (h : Heap) (p : Ptr) : ℕ ×ₗ ℕ := (h.dinodeOf env p).diOtime.key

/-- Among `ps`, the inode with number `di` allocated last; the first on ties. -/
def newest (env : Env) (h : Heap) (ps : List Ptr) (di : ℕ) : Option Ptr :=
  (ps.filter (fun p => (h.obj p).diNumber == di)).argmax (otime env h)

theorem otime_same (s : Heap.Same env h h') : otime env h' = otime env h := by
  funext p
  rw [otime, otime, s.dinodeOf]

theorem newest_same (s : Heap.Same env h h') : newest env h' = newest env h := by
  funext ps di
  simp only [newest, otime_same s, s.diNumber]

theorem newest_eq_none {ps : List Ptr} {di : ℕ} :
    newest env h ps di = none ↔ ∀ p ∈ ps, (h.obj p).diNumber ≠ di := by
  rw [newest, List.argmax_eq_none, List.filter_eq_nil_iff]
  simp

theorem newest_mem {ps : List Ptr} {di : ℕ} {p : Ptr} (hp : newest env h ps di = some p) :
    p ∈ ps ∧ (h.obj p).diNumber = di := by
  have hm := List.argmax_mem (f := otime env h) hp
  simpa using hm

theorem newest_append (ps : List Ptr) (p : Ptr) (di : ℕ) :
    newest env h (ps ++ [p]) di =
      if (h.obj p).diNumber = di then
        match newest env h ps di with
        | none => some p
        | some q => if otime env h q < otime env h p then some p else some q
      else newest env h ps di := by
  by_cases hd : (h.obj p).diNumber = di
  · have hf : [p].filter (fun p => (h.obj p).diNumber == di) = [p] := by simp [hd]
    rw [if_pos hd, newest, List.filter_append, hf, List.argmax_concat, ← newest]
    cases newest env h ps di <;> rfl
  · have hf : [p].filter (fun p => (h.obj p).diNumber == di) = [] := by simp [hd]
    rw [if_neg hd, newest, List.filter_append, hf, List.append_nil, ← newest]

theorem newest_congr {ps : List Ptr} (ho : ∀ p ∈ ps, h'.obj p = h.obj p) (di : ℕ) :
    newest env h' ps di = newest env h ps di := by
  induction ps using List.reverseRecOn with
  | nil => simp [newest]
  | append_singleton ps p ih =>
    have hk : ∀ r ∈ ps ++ [p], otime env h' r = otime env h r := by
      intro r hr
      rw [otime, otime, Heap.dinodeOf, Heap.dinodeOf, ho r hr]
    have hps : ∀ q ∈ ps, h'.obj q = h.obj q := fun q hq => ho q (List.mem_append_left _ hq)
    rw [newest_append, newest_append, ih hps, ho p (by simp)]
    cases hq : newest env h ps di with
    | none => rfl
    | some q =>
      simp only
      rw [hk q (List.mem_append_left _ (newest_mem hq).1), hk p (List.mem_append_right _ (by simp))]

/-- `p` stands in `ps` with number `di`, later inodes of that number are not newer
and earlier ones are older. -/
def IsNewestIn (env : Env) (h : Heap) (ps : List Ptr) (di : ℕ) (p : Ptr) : Prop :=
  ∃ before after, ps = before ++ p :: after ∧ (h.obj p).diNumber = di ∧
    (∀ q ∈ before, (h.obj q).diNumber = di → otime env h q < otime env h p) ∧
    (∀ q ∈ after, (h.obj q).diNumber = di → otime env h q ≤ otime env h p)

theorem IsNewestIn.append {ps : List Ptr} {di : ℕ} {p r : Ptr} (hp : IsNewestIn env h ps di p)
    (hle : (h.obj r).diNumber = di → otime env h r ≤ otime env h p) :
    IsNewestIn env h (ps ++ [r]) di p := by
  obtain ⟨before, after, rfl, hdi, hb, ha⟩ := hp
  refine ⟨before, after ++ [r], by simp, hdi, hb, fun q hq => ?_⟩
  rcases List.mem_append.mp hq with hq | hq
  · exact ha q hq
  · rw [List.mem_singleton.mp hq]
    exact hle

theorem IsNewestIn.concat {ps : List Ptr} {di : ℕ} {p r : Ptr} (hp : IsNewestIn env h ps di p)
    (hr : (h.obj r).diNumber = di) (hlt : otime env h p < otime env h r) :
    IsNewestIn env h (ps ++ [r]) di r := by
  obtain ⟨before, after, rfl, _, hb, ha⟩ := hp
  refine ⟨_, [], rfl, hr, fun q hq hd => ?_, by simp⟩
  rcases List.mem_append.mp hq with hq | hq
  · exact lt_trans (hb q hq hd) hlt
  · rcases List.mem_cons.mp hq with rfl | hq
    · exact hlt
    · exact lt_of_le_of_lt (ha q hq hd) hlt

theorem isNewestIn_of_newest {di : ℕ} : ∀ {ps : List Ptr} {p : Ptr},
    newest env h ps di = some p → IsNewestIn env h ps di p := by
  intro ps
  induction ps using List.reverseRecOn with
  | nil => intro p hp; cases hp
  | append_singleton ps r ih =>
    intro p hp
    rw [newest_append] at hp
    by_cases hr : (h.obj r).diNumber = di
    · rw [if_pos hr] at hp
      cases hq : newest env h ps di with
      | none =>
        simp only [hq, Option.some.injEq] at hp
        subst hp
        exact ⟨ps, [], rfl, hr, fun q hm hd => absurd hd (newest_eq_none.mp hq q hm), by simp⟩
      | some q =>
        simp only [hq] at hp
        by_cases hlt : otime env h q < otime env h r
        · rw [if_pos hlt] at hp
          obtain rfl := Option.some.inj hp
          exact (ih hq).concat hr hlt
        · rw [if_neg hlt] at hp
          obtain rfl := Option.some.inj hp
          exact (ih hq).append (fun _ => not_lt.mp hlt)
    · rw [if_neg hr] at hp
      exact (ih hp).append (fun hd => absurd hd hr)

theorem IsNewestIn.unique {ps : List Ptr} {di : ℕ} {p q : Ptr} (hp : IsNewestIn env h ps di p)
    (hq : IsNewestIn env h ps di q) : p = q := by
  obtain ⟨before, after, hps, hpdi, hpb, hpa⟩ := hp
  obtain ⟨before', after', hps', hqdi, hqb, hqa⟩ := hq
  rw [hps] at hps'
  rcases List.append_eq_append_iff.mp hps' with ⟨t, hbefore, hrest⟩ | ⟨t, hbefore, hrest⟩
  · cases t with
    | nil => exact (List.cons.inj hrest).1
    | cons x t =>
      obtain ⟨rfl, hafter⟩ := List.cons.inj hrest
      have h1 := hqb p (by rw [hbefore]; simp) hpdi
      have h2 := hpa q (by rw [hafter]; simp) hqdi
      exact absurd (lt_of_lt_of_le h1 h2) (lt_irrefl _)
  · cases t with
    | nil => exact (List.cons.inj hrest).1.symm
    | cons x t =>
      obtain ⟨rfl, hafter⟩ := List.cons.inj hrest
      have h1 := hpb q (by rw [hbefore]; simp) hqdi
      have h2 := hqa p (by rw [hafter]; simp) hpdi
      exact absurd (lt_of_lt_of_le h1 h2) (lt_irrefl _)

theorem IsNewestIn.newest_eq {ps : List Ptr} {di : ℕ} {p : Ptr} (hp : IsNewestIn env h ps di p) :
    newest env h ps di = some p := by
  obtain ⟨before, after, hps, hdi, _⟩ := id hp
  cases hq : newest env h ps di with
  | none => exact absurd hdi (newest_eq_none.mp hq p (by rw [hps]; simp))
  | some q => rw [(isNewestIn_of_newest hq).unique hp]

/-! ### The index -/

/-- A round extends the map from the newest of `ps` to the newest of `ps` and `p`. -/
theorem indexStep_spec {ps : List Ptr} {s : Std.TreeMap ℕ Ptr × Heap} (hc : h.Coherent env)
    (hs : Heap.CacheSame env h s.2) (hi : ∀ di, s.1[di]? = newest env h ps di) (p : Ptr) :
    Heap.CacheSame env h (indexStep env s p).2 ∧
      ∀ di, (indexStep env s p).1[di]? = newest env h (ps ++ [p]) di := by
  have hinsert : newest env h (ps ++ [p]) (h.obj p).diNumber = some p →
      ∀ di, (s.1.insert (h.obj p).diNumber p)[di]? = newest env h (ps ++ [p]) di := by
    intro hp di
    simp only [Std.TreeMap.getElem?_insert, compare_eq_iff_eq]
    by_cases hd : (h.obj p).diNumber = di
    · rw [if_pos hd, ← hd, hp]
    · rw [if_neg hd, hi, newest_append, if_neg hd]
  have hnum : (s.2.obj p).diNumber = (h.obj p).diNumber := hs.diNumber p
  have hnewest : newest env h (ps ++ [p]) (h.obj p).diNumber =
      match newest env h ps (h.obj p).diNumber with
      | none => some p
      | some q => if otime env h q < otime env h p then some p else some q := by
    rw [newest_append, if_pos rfl]
  rw [indexStep, hnum, hi]
  cases hq : newest env h ps (h.obj p).diNumber with
  | none =>
    rw [hq] at hnewest
    exact ⟨hs, hinsert hnewest⟩
  | some q =>
    rw [hq] at hnewest
    -- both dinodes are the device's, so the comparison is of creation times
    obtain ⟨h1, hget1, hs1⟩ := Heap.getDinode_eq (hs.coherent hc) q
    obtain ⟨h2, hget2, hs2⟩ := Heap.getDinode_eq (hs1.coherent (hs.coherent hc)) p
    have hs3 := (hs.trans hs1).trans hs2
    simp only [hget1, hget2, hs1.dinodeOf, hs.dinodeOf, Timestruc.lt_iff, hs3.diNumber]
    by_cases ht : (h.dinodeOf env q).diOtime.key < (h.dinodeOf env p).diOtime.key
    · rw [if_pos ht]
      exact ⟨hs3, hinsert (hnewest.trans (if_pos ht))⟩
    · rw [if_neg ht]
      refine ⟨hs3, fun di => ?_⟩
      rw [hi]
      by_cases hd : (h.obj p).diNumber = di
      · rw [← hd, hnewest, hq]
        exact (if_neg ht).symm
      · rw [newest_append, if_neg hd]

/-- `generate_di_number_index` fills the map with the newest of every number,
and touches nothing else but caches. -/
theorem foldl_indexStep (ps : List Ptr) (hc : h.Coherent env) :
    Heap.CacheSame env h (ps.foldl (indexStep env) (∅, h)).2 ∧
      ∀ di, (ps.foldl (indexStep env) (∅, h)).1[di]? = newest env h ps di := by
  induction ps using List.reverseRecOn with
  | nil => exact ⟨.refl, fun di => by simp [newest]⟩
  | append_singleton ps p ih =>
    obtain ⟨hs, hi⟩ := ih
    rw [List.foldl_append, List.foldl_cons, List.foldl_nil]
    exact indexStep_spec hc hs hi p

variable {v : InodeVector}

theorem cacheSame_generate (hc : v.heap.Coherent env) :
    Heap.CacheSame env v.heap (v.generateDiNumberIndex env).heap :=
  (foldl_indexStep v.inodes hc).1

theorem generateDiNumberIndex_getElem? (hc : v.heap.Coherent env) (di : ℕ) :
    (v.generateDiNumberIndex env).diNumberIndex[di]? = newest env v.heap v.inodes di :=
  (foldl_indexStep v.inodes hc).2 di

/-- Whenever the flag allows the index to be used, it is the right one. -/
def IndexValid (env : Env) (v : InodeVector) : Prop :=
  v.diNumberIndexOk = true → ∀ di, v.diNumberIndex[di]? = newest env v.heap v.inodes di

theorem indexValid_generate (hc : v.heap.Coherent env) :
    (v.generateDiNumberIndex env).IndexValid env := by
  intro _ di
  rw [generateDiNumberIndex_getElem? hc, newest_same (cacheSame_generate hc).toSame]
  rfl

/-- What `get_by_di_number` answers, and that it changes the index and caches
only. -/
theorem getByDiNumber_spec (hc : v.heap.Coherent env) (hv : v.IndexValid env) (di : ℕ) :
    (v.getByDiNumber env di).1 = (newest env v.heap v.inodes di).getD NULL ∧
      Heap.CacheSame env v.heap (v.getByDiNumber env di).2.heap ∧
      (v.getByDiNumber env di).2.inodes = v.inodes ∧
      (v.getByDiNumber env di).2.invalidatedInodes = v.invalidatedInodes ∧
      (v.getByDiNumber env di).2.diNumberIndexOk = true ∧
      (v.getByDiNumber env di).2.IndexValid env := by
  unfold getByDiNumber
  by_cases hok : v.diNumberIndexOk = true
  · simp only [if_pos hok]
    exact ⟨by rw [hv hok di], .refl, trivial, trivial, hok, hv⟩
  · simp only [if_neg hok]
    refine ⟨by rw [generateDiNumberIndex_getElem? hc], cacheSame_generate hc, rfl, rfl, rfl,
      indexValid_generate hc⟩

@[simp] theorem addInode_heap (v : InodeVector) (i : Ptr) : (v.addInode i).heap = v.heap := by
  unfold addInode
  split <;> [split; skip] <;> rfl

@[simp] theorem addInode_inodes (v : InodeVector) (i : Ptr) :
    (v.addInode i).inodes = v.inodes ++ [i] := by
  unfold addInode
  split <;> [split; skip] <;> rfl

@[simp] theorem addInode_invalidatedInodes (v : InodeVector) (i : Ptr) :
    (v.addInode i).invalidatedInodes = v.invalidatedInodes := by
  unfold addInode
  split <;> [split; skip] <;> rfl

/-- `add_inode` extends the index by an unknown number and gives the index up
at a known one. -/
theorem indexValid_addInode (hv : v.IndexValid env) (i : Ptr) : (v.addInode i).IndexValid env := by
  unfold addInode
  split
  · rename_i hok
    split
    · rename_i hnone
      intro _ di
      have hn := hv hok
      simp only [Std.TreeMap.getElem?_insert, newest_append, hn, compare_eq_iff_eq]
      by_cases hd : (v.heap.obj i).diNumber = di
      · rw [if_pos hd, if_pos hd, ← hd, ← hn, hnone]
      · rw [if_neg hd, if_neg hd]
    · intro hok'; cases hok'
  · rename_i hok
    intro hok'
    exact absurd hok' hok

/-! ### Removal -/

theorem removeWhere_inodes_filter (out : Inode → Bool) : (v.removeWhere out).inodes
    = (v.inodes.filter (fun p => !out (v.heap.obj p))).filter (· ≠ NULL) := by
  show (v.inodes.map (fun p => if out (v.heap.obj p) then NULL else p)).filter (· ≠ NULL) = _
  induction v.inodes with
  | nil => rfl
  | cons p ps ih =>
    by_cases ho : out (v.heap.obj p) = true
    · rw [List.map_cons, if_pos ho, List.filter_cons_of_neg (by simp),
        List.filter_cons_of_neg (by simp [ho]), ih]
    · rw [List.map_cons, if_neg ho, List.filter_cons, ih,
        List.filter_cons_of_pos (p := fun p => !out (v.heap.obj p)) (by simp [ho]),
        List.filter_cons]

theorem removeWhere_inodes {out : Inode → Bool} (hn : ∀ p ∈ v.inodes, p ≠ NULL) :
    (v.removeWhere out).inodes = v.inodes.filter (fun p => !out (v.heap.obj p)) := by
  rw [removeWhere_inodes_filter, List.filter_eq_self]
  intro p hp
  simpa using hn p (List.mem_of_mem_filter hp)

theorem removeWhere_inv (out : Inode → Bool) :
    (v.removeWhere out).invalidatedInodes
      = v.invalidatedInodes ++ v.inodes.filter (fun p => out (v.heap.obj p)) := rfl

def IsNewest (env : Env) (v : InodeVector) (p : Ptr) : Prop :=
  newest env v.heap v.inodes (v.heap.obj p).diNumber = some p

instance (env : Env) (v : InodeVector) (p : Ptr) : Decidable (v.IsNewest env p) :=
  inferInstanceAs (Decidable (_ = _))

/-- An index of the newest holds just the inodes that are the newest of their number. -/
theorem mem_index_iff {index : Std.TreeMap ℕ Ptr}
    (hidx : ∀ di, index[di]? = newest env v.heap v.inodes di) {p : Ptr} :
    p ∈ index.toList.map Prod.snd ↔ v.IsNewest env p := by
  constructor
  · intro hm
    obtain ⟨⟨di, q⟩, hq, rfl⟩ := List.mem_map.mp hm
    rw [Std.TreeMap.mem_toList_iff_getElem?_eq_some, hidx] at hq
    rw [IsNewest, (newest_mem hq).2, hq]
  · intro hm
    refine List.mem_map.mpr ⟨((v.heap.obj p).diNumber, p), ?_, rfl⟩
    rw [Std.TreeMap.mem_toList_iff_getElem?_eq_some, hidx]
    exact hm

/-- **`remove_dupes` keeps the newest of each number.** -/
theorem removeDupes_spec (hc : v.heap.Coherent env) (hn : ∀ p ∈ v.inodes, p ≠ NULL) :
    Heap.Same env v.heap (v.removeDupes env).heap ∧
      (v.removeDupes env).inodes = v.inodes.filter (fun p => v.IsNewest env p) ∧
      (v.removeDupes env).invalidatedInodes
        = v.invalidatedInodes ++ v.inodes.filter (fun p => !decide (v.IsNewest env p)) ∧
      (v.removeDupes env).diNumberIndexOk = false := by
  have hs1 : Heap.Same env v.heap v.unmarkAll.heap :=
    same_foldl (fun _ _ => Heap.same_unmark) v.inodes v.heap
  have hc1 := hs1.coherent hc
  have hs2 : Heap.CacheSame env v.unmarkAll.heap (v.unmarkAll.generateDiNumberIndex env).heap :=
    cacheSame_generate hc1
  let w := v.unmarkAll.generateDiNumberIndex env
  let ms := w.diNumberIndex.toList.map Prod.snd
  have hs3 : Heap.Same env w.heap (ms.foldl Heap.mark w.heap) :=
    same_foldl (fun _ _ => Heap.same_mark) ms w.heap
  have hs := (hs1.trans hs2.toSame).trans hs3
  -- the marked inodes are those the index holds
  have hmarked : ∀ p ∈ v.inodes,
      (ms.foldl Heap.mark w.heap).marked p = decide (v.IsNewest env p) := by
    intro p hp
    have hun : w.heap.marked p = false := by
      have : w.heap.marked = v.unmarkAll.heap.marked := hs2.marked
      rw [this]
      exact (marked_foldl_unmark v.inodes v.heap p).trans (by simp [hp])
    rw [marked_foldl_mark, hun, Bool.or_false, decide_eq_decide]
    refine mem_index_iff (fun di => ?_)
    rw [← newest_same hs1]
    exact generateDiNumberIndex_getElem? hc1 di
  refine ⟨hs, ?_, ?_, rfl⟩
  · refine (removeWhere_inodes (v := { w with heap := ms.foldl Heap.mark w.heap }) hn).trans ?_
    refine List.filter_congr (fun p hp => ?_)
    rw [Bool.not_not]
    exact hmarked p hp
  · refine congrArg (v.invalidatedInodes ++ ·) (List.filter_congr (fun p hp => ?_))
    exact congrArg (! ·) (hmarked p hp)

end InodeVector

end Jfsrec
