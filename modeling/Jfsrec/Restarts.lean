import Jfsrec.Lib.Repeats
import Jfsrec.Inostamps
import Jfsrec.Stages

/-!
# Runs that are killed and started again

A run that finds a positions file goes on from the stage that wrote it, and the loop over
`!f.eof()` hands it the last inode of the file once too often.  The copy has the number of the
inode before it and no later time: `detect_ino_extents` and `remove_dupes` throw it out, and
`remove_unallocated` treats it as the original.  So a run may be killed behind any stage, and
the next one behind any other, and the last run ends with what an uninterrupted one ends with,
`scan_after_kills`; only a run that finds all stages done keeps the copy.
-/

namespace Jfsrec

open Lib InodeVector

/-! ### A second last inode -/

variable {l m : List View} {x : View}

theorem continues_concat (hx : l.getLast? = some x) : continues (l ++ [x]) = continues l := by
  obtain ⟨front, rfl⟩ := List.getLast?_eq_some_iff.mp hx
  funext j
  rcases Nat.lt_trichotomy (j + 1) (front ++ [x]).length with hj | hj | hj
  · rw [continues, continues, List.getElem?_append_left (Nat.lt_of_succ_lt hj),
      List.getElem?_append_left hj]
  · -- from the last inode to its copy
    obtain rfl : j = front.length := by simpa using hj
    have hend : continues (front ++ [x]) front.length = false := continues_end (by simp)
    rw [hend, continues]
    simp
  · rw [continues_end (by simp at hj ⊢; omega), continues_end (by omega)]

/-- **`detect_ino_extents` throws the copy out**, and counts as if it were not there. -/
theorem keepAt_keepExtent_concat (hx : l.getLast? = some x) :
    keepAt (keepExtent (l ++ [x])) (l ++ [x]) = keepAt (keepExtent l) l := by
  have hgo : continues (l ++ [x]) = continues l := continues_concat hx
  have hback : continuesBack (l ++ [x]) = continuesBack l := by
    funext j
    rw [continuesBack, continuesBack, hgo]
  have hkeep : keepExtent (l ++ [x]) = keepExtent l := by
    funext i
    rw [keepExtent, keepExtent, extentCount, extentCount, hgo, hback]
  have hcopy : keepExtent l l.length = false := by
    have hforward : continues l l.length = false := continues_end (Nat.le_succ _)
    have hbackward : continuesBack l l.length = false := by
      have hpos : 0 < l.length := List.length_pos_of_mem (List.mem_of_getLast? hx)
      rw [continuesBack, continues_end (show l.length ≤ l.length - 1 + 1 by omega), Bool.and_false]
    have hone : countWhile 32 (continues l) Nat.succ 32 l.length 0 = 1 := by
      rw [countWhile, hforward, if_neg (fun h => Bool.false_ne_true h.1)]
    rw [keepExtent, extentCount, hone, countWhile, hbackward,
      if_neg (fun h => Bool.false_ne_true h.1)]
    rfl
  rw [hkeep, keepAt_concat, hcopy, if_neg Bool.false_ne_true, List.append_nil]

/-- **`remove_dupes` throws the copy out.** -/
theorem keepAt_keepNewest_concat (hx : l.getLast? = some x) :
    keepAt (keepNewest (l ++ [x])) (l ++ [x]) = keepAt (keepNewest l) l := by
  obtain ⟨front, rfl⟩ := List.getLast?_eq_some_iff.mp hx
  have hcopy : keepNewest (front ++ [x] ++ [x]) (front ++ [x]).length = false := by
    rw [keepNewest, List.getElem?_append_right (Nat.le_refl _), Nat.sub_self,
      List.take_append_of_le_length (Nat.le_refl _), List.take_length]
    simp
  have hkeep : ∀ i < (front ++ [x]).length,
      keepNewest (front ++ [x] ++ [x]) i = keepNewest (front ++ [x]) i := by
    intro i hi
    rw [keepNewest, keepNewest, List.getElem?_append_left hi,
      List.take_append_of_le_length (Nat.le_of_lt hi), List.drop_append_of_le_length hi]
    rw [List.getElem?_eq_getElem hi, Option.all_some, Option.all_some, List.all_append]
    refine congrArg _ ?_
    -- the copy is not newer than the last inode, which stands at `i` or behind it
    rcases Nat.lt_or_ge i front.length with hlt | hge
    · rw [List.drop_append_of_le_length hlt, List.all_append, Bool.and_assoc, Bool.and_self]
    · obtain rfl : i = front.length := by simp at hi; omega
      simp
  rw [keepAt_concat, hcopy, if_neg Bool.false_ne_true, List.append_nil, keepAt_congr hkeep]

theorem keepAt_keepAllocated (l : List View) :
    keepAt (keepAllocated l) l = l.filter (fun x => x.dinode.diNlink != 0) := by
  refine (filter_eq_keepAt (fun i hi => ?_)).symm
  rw [keepAllocated, List.getElem?_eq_getElem hi, Option.all_some]

def stampKept (l : List View) : Option ℕ :=
  dominantInostamp (countInostamps (l.map (fun x => x.dinode.diInostamp)))

theorem keepAt_keepInostamp (l : List View) : keepAt (keepInostamp l) l
    = l.filter (fun x => (stampKept l).all (fun stamp => x.dinode.diInostamp == stamp)) := by
  refine (filter_eq_keepAt (fun i hi => ?_)).symm
  rw [keepInostamp, stampKept]
  cases dominantInostamp (countInostamps (l.map (fun x => x.dinode.diInostamp))) with
  | none => rfl
  | some stamp => rw [List.getElem?_eq_getElem hi]; rfl

/-! ### What a stage leaves -/

namespace Stage

/-- The selections that are done when a stage is saved. -/
def done : Stage → List Selection
  | postScan => []
  | postExtentscan => [keepInostamp, keepExtent]
  | postRemoveUnallocated => [keepInostamp, keepExtent, keepAllocated]
  | postRemoveDupes => [keepInostamp, keepExtent, keepAllocated, keepNewest]

/-- What they leave of the inodes that a scan has found. -/
def left (stage : Stage) (l : List View) : List View := (stage.done.foldl select (l, [])).1

/-- The inodes that the file of a stage can list: those that the stage leaves, behind
`remove_unallocated` perhaps with copies of the last one. -/
structure CanHold (l : List View) (stage : Stage) (m : List View) : Prop where
  repeated : LastRepeated (stage.left l) m
  exact : stage ≠ .postRemoveUnallocated → m = stage.left l

/-- The inodes that a run can have behind a stage: after a load, the last one of the file once
more. -/
def CanHave (l : List View) (stage : Stage) (m : List View) : Prop :=
  ∃ held, stage.CanHold l held ∧ (m = held ∨ ∃ x, held.getLast? = some x ∧ m = held ++ [x])

end Stage

/-- Another inode with the last stamp makes no difference to `filter_inostamps`. -/
def StampsSettled (l : List View) : Prop :=
  ∀ x, l.getLast? = some x → stampKept (l ++ [x]) = stampKept l

theorem Stage.CanHave.repeated {stage : Stage} (h : stage.CanHave l m) :
    LastRepeated (stage.left l) m := by
  obtain ⟨held, hheld, rfl | ⟨x, hx, rfl⟩⟩ := h
  · exact hheld.repeated
  · exact hheld.repeated.again hx

theorem canHold_extentscan (hstamps : StampsSettled l) (h : Stage.postScan.CanHave l m) :
    Stage.postExtentscan.CanHold l
      (keepAt (keepExtent (keepAt (keepInostamp m) m)) (keepAt (keepInostamp m) m)) := by
  have hrepeated : LastRepeated (keepAt (keepInostamp l) l) (keepAt (keepInostamp m) m) := by
    obtain ⟨held, hheld, hm⟩ := h
    obtain rfl : held = l := hheld.exact (by decide)
    rcases hm with rfl | ⟨x, hx, rfl⟩
    · exact .refl
    · rw [keepAt_keepInostamp, keepAt_keepInostamp, hstamps x hx]
      exact (LastRepeated.refl.again hx).filter _
  have hexact := hrepeated.keepAt_eq keepExtent (fun _ _ => keepAt_keepExtent_concat)
  rw [hexact]
  exact ⟨.refl, fun _ => rfl⟩

theorem canHold_unallocated (h : Stage.postExtentscan.CanHave l m) :
    Stage.postRemoveUnallocated.CanHold l (keepAt (keepAllocated m) m) := by
  have hleft : Stage.postRemoveUnallocated.left l
      = keepAt (keepAllocated (Stage.postExtentscan.left l)) (Stage.postExtentscan.left l) := rfl
  refine ⟨?_, fun hne => absurd rfl hne⟩
  rw [hleft, keepAt_keepAllocated, keepAt_keepAllocated]
  exact h.repeated.filter _

theorem canHold_dupes (h : Stage.postRemoveUnallocated.CanHave l m) :
    Stage.postRemoveDupes.CanHold l (keepAt (keepNewest m) m) := by
  have hexact := h.repeated.keepAt_eq keepNewest (fun _ _ => keepAt_keepNewest_concat)
  rw [hexact]
  exact ⟨.refl, fun _ => rfl⟩

/-! ### The files of a stage -/

def Stage.rank : Stage → ℕ
  | postScan => 0
  | postExtentscan => 1
  | postRemoveUnallocated => 2
  | postRemoveDupes => 3

theorem Scanner.latest_eq_some {files : Files} {stage : Stage} :
    latest files = some stage ↔ (files stage.file).isSome = true ∧
      ∀ later : Stage, stage.rank < later.rank → files later.file = none := by
  have hall : ∀ P : Stage → Prop, (∀ st, P st) ↔
      P .postScan ∧ P .postExtentscan ∧ P .postRemoveUnallocated ∧ P .postRemoveDupes :=
    fun P => ⟨fun h => ⟨h _, h _, h _, h _⟩, fun h st => by cases st <;> simp [h]⟩
  rw [hall, latest, stages]
  cases h1 : files Stage.postScan.file <;> cases h2 : files Stage.postExtentscan.file <;>
    cases h3 : files Stage.postRemoveUnallocated.file <;>
    cases h4 : files Stage.postRemoveDupes.file <;> cases stage <;>
    simp [h1, h2, h3, h4, Stage.rank]

/-- The files of a run that has saved a stage.  Nothing that the scan has found is in neither
list. -/
structure StageFiles (l : List View) (stage : Stage) (files : Files) : Prop where
  latest : Scanner.latest files = some stage
  lists : ∃ m inv : List View, stage.CanHold l m ∧
    files stage.file = some (Istream.lines (m.map View.byteOffset)) ∧
    files .invalidated
      = (if inv = [] then none else some (Istream.lines (inv.map View.byteOffset))) ∧
    ∀ x, x ∈ l ↔ x ∈ m ∨ x ∈ inv

/-- Nothing that the scan has found is lost.  There is a file of invalidated inodes only if there
are any. -/
structure Intact (env : Env) (l : List View) (v : InodeVector) (files : Files) : Prop where
  ready : v.Ready env
  mem_iff : ∀ x, x ∈ l ↔ x ∈ v.views env ∨ x ∈ v.invalidatedViews env
  invalidated : v.invalidatedInodes = [] → files .invalidated = none

structure Behind (env : Env) (l : List View) (stage : Stage) (s : Scanner) : Prop
    extends Intact env l s.inovec s.files where
  canHave : stage.CanHave l (s.inovec.views env)
  later : ∀ st : Stage, stage.rank < st.rank → s.files st.file = none

variable {env : Env} {stage : Stage} {files : Files} {s : Scanner}

theorem savePositions_stage (env : Env) (stage : Stage) (v : InodeVector) (files : Files)
    (st : Stage) :
    savePositions stage.file v files st.file = if st = stage
      then some (Istream.lines ((v.views env).map View.byteOffset)) else files st.file := by
  have hinv : ∀ (f : Files) t, Function.update f .invalidated t st.file = f st.file :=
    fun f t => Function.update_of_ne st.file_ne_invalidated _ _
  have hfile : Function.update files stage.file
      (some (Istream.lines (v.inodes.map (fun p => (v.heap.obj p).byteOffset)))) st.file
        = if st = stage then some (Istream.lines ((v.views env).map View.byteOffset))
          else files st.file := by
    rw [views, List.map_map]
    by_cases hst : st = stage
    · rw [if_pos hst, hst, Function.update_self]
      rfl
    · have hne : st.file ≠ stage.file := by
        revert hst
        cases st <;> cases stage <;> decide
      rw [if_neg hst, Function.update_of_ne hne]
  rw [savePositions]
  split
  · rw [hinv, hfile]
  · rw [hfile]

theorem savePositions_invalidated (env : Env) (stage : Stage) (v : InodeVector) (files : Files) :
    savePositions stage.file v files .invalidated = if v.invalidatedInodes = []
      then files .invalidated
      else some (Istream.lines ((v.invalidatedViews env).map View.byteOffset)) := by
  have hne : ProgressFile.invalidated ≠ stage.file := Ne.symm stage.file_ne_invalidated
  rw [savePositions, invalidatedViews, List.map_map]
  by_cases hnil : v.invalidatedInodes = []
  · rw [if_pos hnil, if_neg (by simp [hnil]), Function.update_of_ne hne]
  · rw [if_neg hnil, if_pos (List.length_pos_of_ne_nil hnil), Function.update_self]
    rfl

/-! ### Loading and saving -/

theorem values_text {ks : List ℕ} (hks : ∀ k ∈ ks, k < 2 ^ 64) (v : ℕ) :
    Istream.values 64 ((Istream.lines ks).length + 2) ⟨Istream.lines ks, false, false⟩ v
      = some (ks ++ [ks.getLastD v], ⟨[], true, true⟩, ks.getLastD v) := by
  have hlen := Istream.length_le_lines ks
  exact Istream.values_lines ks [] v _ (by simp) hks (by omega)

/-- What the two loops over `!f.eof()` read, the first of them from a text of lines. -/
theorem positionsRead_of_lines (env : Env) {fn : ProgressFile} {ns ms : List ℕ} {n : ℕ}
    (hfile : files fn = some (Istream.lines ns)) (hlast : ns.getLast? = some n)
    (hns : ∀ k ∈ ns, k < 2 ^ 64) (hms : ∀ k ∈ ms, k < 2 ^ 64) :
    (files .invalidated = none → positionsRead env fn files = some (ns ++ [n], [])) ∧
      (files .invalidated = some (Istream.lines ms) →
        positionsRead env fn files = some (ns ++ [n], ms ++ [ms.getLastD n])) := by
  have hn : ns.getLastD env.bo = n := by rw [List.getLastD_eq_getLast?, hlast, Option.getD_some]
  have hfirst := values_text hns env.bo
  rw [hn] at hfirst
  refine ⟨fun hinv => ?_, fun hinv => ?_⟩
  · -- a file that cannot be opened leaves `eofbit` as it was
    simp only [positionsRead, hfile, Istream.openFile, hfirst, hinv]
    rfl
  · simp only [positionsRead, hfile, Istream.openFile, hfirst, hinv, values_text hms n]

/-- From the files of a stage the loops read the last line of both twice. -/
theorem positionsRead_lines (env : Env) {fn : ProgressFile} {ns ms : List ℕ} {n : ℕ}
    (hfile : files fn = some (Istream.lines ns))
    (hinv : files .invalidated = if ms = [] then none else some (Istream.lines ms))
    (hlast : ns.getLast? = some n) (hns : ∀ k ∈ ns, k < 2 ^ 64) (hms : ∀ k ∈ ms, k < 2 ^ 64) :
    positionsRead env fn files = some (ns ++ [n], ms ++ ms.getLast?.toList) := by
  obtain ⟨hnone, hsome⟩ := positionsRead_of_lines env hfile hlast hns hms
  by_cases hnil : ms = []
  · rw [hnil] at hinv ⊢
    exact hnone hinv
  · rw [if_neg hnil] at hinv
    obtain ⟨m, hm⟩ := Option.isSome_iff_exists.mp (List.getLast?_isSome.mpr hnil)
    have hread := hsome hinv
    rw [List.getLastD_eq_getLast?, hm, Option.getD_some] at hread
    rw [hm]
    exact hread

/-- **What a load makes of the files of a stage**: the last lines of both are taken twice. -/
theorem StageFiles.loads (h : StageFiles l stage files) (hl : ∀ x ∈ l, x.OnDevice env.device)
    (hne : stage.left l ≠ []) :
    ∃ m inv x, stage.CanHold l m ∧ m.getLast? = some x ∧ (∀ y, y ∈ l ↔ y ∈ m ∨ y ∈ inv) ∧
      (inv = [] → files .invalidated = none) ∧
      (∀ y ∈ m ++ [x] ++ (inv ++ inv.getLast?.toList), y.OnDevice env.device) ∧
      ∀ v, loadFromPositions env stage.file files v
        = (.ok (), loaded env ((m ++ [x]).map View.byteOffset)
            ((inv ++ inv.getLast?.toList).map View.byteOffset) v) := by
  obtain ⟨-, m, inv, hm, hfile, hinv, hmem⟩ := h
  obtain ⟨x, hx⟩ := Option.isSome_iff_exists.mp
    (List.getLast?_isSome.mpr (hm.repeated.ne_nil hne))
  have hml : ∀ y ∈ m, y ∈ l := fun y hy => (hmem y).mpr (Or.inl hy)
  have hil : ∀ y ∈ inv, y ∈ l := fun y hy => (hmem y).mpr (Or.inr hy)
  have hon : ∀ y ∈ m ++ [x] ++ (inv ++ inv.getLast?.toList), y.OnDevice env.device := by
    intro y hy
    simp only [List.mem_append, List.mem_singleton, Option.mem_toList] at hy
    rcases hy with (hy | rfl) | hy | hy
    · exact hl y (hml y hy)
    · exact hl y (hml y (List.mem_of_getLast? hx))
    · exact hl y (hil y hy)
    · exact hl y (hil y (List.mem_of_getLast? hy))
  have hlt : ∀ ys : List View, (∀ y ∈ ys, y ∈ l) → ∀ k ∈ ys.map View.byteOffset, k < 2 ^ 64 := by
    intro ys hys k hk
    obtain ⟨y, hy, rfl⟩ := List.mem_map.mp hk
    have hslot := (hl y (hys y hy)).slot.2
    have hsize := env.device.getSizeBytes_lt
    omega
  have hinv' : files .invalidated = if inv.map View.byteOffset = [] then none
      else some (Istream.lines (inv.map View.byteOffset)) := by
    rw [hinv]
    simp only [List.map_eq_nil_iff]
  have hread := positionsRead_lines env hfile hinv' (by rw [List.getLast?_map, hx]; rfl)
    (hlt m hml) (hlt inv hil)
  have hback : (inv.map View.byteOffset).getLast?.toList
      = inv.getLast?.toList.map View.byteOffset := by
    rw [List.getLast?_map]
    cases inv.getLast? <;> rfl
  have htwice : m.map View.byteOffset ++ [x.byteOffset] = (m ++ [x]).map View.byteOffset := by
    rw [List.map_append]
    rfl
  rw [hback, ← List.map_append, htwice] at hread
  refine ⟨m, inv, x, hm, hx, hmem, fun hnil => by rw [hinv, if_pos hnil], hon, fun v => ?_⟩
  refine loadFromPositions_of_read hread (fun n hn => ?_)
  rw [← List.map_append] at hn
  obtain ⟨y, hy, rfl⟩ := List.mem_map.mp hn
  exact ⟨_, readFromDisk_of_slot (hon y hy).slot⟩

/-- **A run that loads the files of a stage is behind that stage**, and has the last inode of the
file twice. -/
theorem StageFiles.load (h : StageFiles l stage files) (hl : ∀ x ∈ l, x.OnDevice env.device)
    (hne : stage.left l ≠ []) (ok : Bool) :
    ∃ v m x, loadFromPositions env stage.file files (start ok) = (.ok (), v) ∧
      Behind env l stage ⟨v, files⟩ ∧ stage.CanHold l m ∧ m.getLast? = some x ∧
      v.views env = m ++ [x] := by
  obtain ⟨m, inv, x, hm, hx, hmem, hnone, hon, hload⟩ := h.loads hl hne
  obtain ⟨hready, hviews⟩ := allViews_loaded hon ok
  obtain ⟨hviews, hinviews⟩ := Prod.mk.inj hviews
  have hxm : x ∈ m := List.mem_of_getLast? hx
  have hinvmem : ∀ y, y ∈ inv ++ inv.getLast?.toList ↔ y ∈ inv := by
    intro y
    rw [List.mem_append, Option.mem_toList]
    exact or_iff_left_of_imp (fun hy => List.mem_of_getLast? hy)
  refine ⟨_, m, x, hload _, ⟨⟨hready, fun y => ?_, fun hnil => ?_⟩,
    ⟨m, hm, Or.inr ⟨x, hx, hviews⟩⟩, (Scanner.latest_eq_some.mp h.latest).2⟩, hm, hx, hviews⟩
  · show y ∈ l ↔ y ∈ views env _ ∨ y ∈ invalidatedViews env _
    rw [hviews, hinviews, hinvmem, List.mem_append, List.mem_singleton, hmem y]
    constructor
    · rintro (hy | hy)
      · exact Or.inl (Or.inl hy)
      · exact Or.inr hy
    · rintro ((hy | rfl) | hy)
      · exact Or.inl hy
      · exact Or.inl hxm
      · exact Or.inr hy
  · rw [invalidatedViews, hnil] at hinviews
    exact hnone (List.append_eq_nil_iff.mp hinviews.symm).1

theorem Intact.selects {sel : Selection} {v w : InodeVector} (h : Intact env l v files)
    (hs : Selects env sel v w) : Intact env l w files := by
  refine ⟨hs.ready h.ready, fun x => ?_, fun hnil => h.invalidated ?_⟩
  · have hperm := (keepAt_perm (sel (v.views env)) (v.views env)).mem_iff (a := x)
    rw [List.mem_append] at hperm
    rw [h.mem_iff, hs.views_eq, hs.invalidatedViews_eq, List.mem_append, ← hperm]
    constructor
    · rintro ((hx | hx) | hx)
      · exact Or.inl hx
      · exact Or.inr (Or.inr hx)
      · exact Or.inr (Or.inl hx)
    · rintro (hx | hx | hx)
      · exact Or.inl (Or.inl hx)
      · exact Or.inr hx
      · exact Or.inl (Or.inr hx)
  · rw [hs.invalidatedInodes] at hnil
    exact (List.append_eq_nil_iff.mp hnil).1

theorem latest_savePositions (env : Env) (v : InodeVector)
    (hlater : ∀ st : Stage, stage.rank < st.rank → files st.file = none) :
    (∀ st : Stage, stage.rank < st.rank → savePositions stage.file v files st.file = none) ∧
      Scanner.latest (savePositions stage.file v files) = some stage := by
  have hnone : ∀ st : Stage, stage.rank < st.rank →
      savePositions stage.file v files st.file = none := by
    intro st hst
    have hne : st ≠ stage := by
      rintro rfl
      exact Nat.lt_irrefl _ hst
    rw [savePositions_stage env, if_neg hne]
    exact hlater st hst
  refine ⟨hnone, Scanner.latest_eq_some.mpr ⟨?_, hnone⟩⟩
  rw [savePositions_stage env, if_pos rfl]
  rfl

theorem Intact.savePositions {v : InodeVector} (h : Intact env l v files) (stage : Stage) :
    Intact env l v (savePositions stage.file v files) ∧
      InodeVector.savePositions stage.file v files .invalidated
        = (if v.invalidatedViews env = [] then none
          else some (Istream.lines ((v.invalidatedViews env).map View.byteOffset))) := by
  have hinv := savePositions_invalidated env stage v files
  have hnil : v.invalidatedViews env = [] ↔ v.invalidatedInodes = [] := List.map_eq_nil_iff
  refine ⟨⟨h.ready, h.mem_iff, fun hv => ?_⟩, ?_⟩
  · rw [hinv, if_pos hv, h.invalidated hv]
  · rw [hinv]
    by_cases hv : v.invalidatedInodes = []
    · rw [if_pos hv, if_pos (hnil.mpr hv), h.invalidated hv]
    · rw [if_neg hv, if_neg (mt hnil.mp hv)]

/-- **A run that saves a stage leaves its files**, and is behind it. -/
theorem Intact.save {v : InodeVector} (h : Intact env l v files)
    (hold : stage.CanHold l (v.views env))
    (hlater : ∀ st : Stage, stage.rank < st.rank → files st.file = none) :
    StageFiles l stage (InodeVector.savePositions stage.file v files) ∧
      Behind env l stage ⟨v, InodeVector.savePositions stage.file v files⟩ := by
  obtain ⟨hnone, hlatest⟩ := latest_savePositions env v hlater
  obtain ⟨hintact, hinv⟩ := h.savePositions stage
  have hfile := savePositions_stage env stage v files stage
  rw [if_pos rfl] at hfile
  exact ⟨⟨hlatest, _, _, hold, hfile, hinv, h.mem_iff⟩, hintact, ⟨_, hold, Or.inl rfl⟩, hnone⟩

/-! ### From stage to stage -/

theorem Behind.later_of_lt {st : Stage} (h : Behind env l stage s) (hst : stage.rank < st.rank) :
    ∀ st' : Stage, st.rank < st'.rank → s.files st'.file = none :=
  fun st' hst' => h.later st' (Nat.lt_trans hst hst')

theorem Behind.extentscan (h : Behind env l .postScan s) (hstamps : StampsSettled l) :
    StageFiles l .postExtentscan (s.extentscan env).files ∧
      Behind env l .postExtentscan (s.extentscan env) := by
  have hs₁ := filterInostamps_selects h.ready
  have hs₂ := detectInoExtents_selects (hs₁.ready h.ready)
  refine ((h.toIntact.selects hs₁).selects hs₂).save ?_ (h.later_of_lt (by decide))
  rw [hs₂.views_eq, hs₁.views_eq]
  exact canHold_extentscan hstamps h.canHave

theorem Behind.unallocated (h : Behind env l .postExtentscan s) :
    StageFiles l .postRemoveUnallocated (s.unallocated env).files ∧
      Behind env l .postRemoveUnallocated (s.unallocated env) := by
  have hs := removeUnallocated_selects h.ready
  refine (h.toIntact.selects hs).save ?_ (h.later_of_lt (by decide))
  rw [hs.views_eq]
  exact canHold_unallocated h.canHave

theorem Behind.dupes (h : Behind env l .postRemoveUnallocated s) :
    StageFiles l .postRemoveDupes (s.dupes env).files ∧
      Behind env l .postRemoveDupes (s.dupes env) ∧
      (s.dupes env).inovec.views env = Stage.postRemoveDupes.left l := by
  have hs := removeDupes_selects h.ready
  have hold := canHold_dupes h.canHave
  rw [← hs.views_eq] at hold
  obtain ⟨hholds, hbehind⟩ := (h.toIntact.selects hs).save hold (h.later_of_lt (by decide))
  exact ⟨hholds, hbehind, hold.exact (by decide)⟩

/-! ### Runs -/

def Device.found (dev : Device) : List View :=
  (dev.sane 0 (dev.getSizeBytes / 512)).map (fun ino =>
    ⟨ino.kind, ino.byteOffset, ino.diNumber, ino.parentDiNumber, dev.dinodeAt ino.byteOffset⟩)

namespace Scanner

/-- The states of a run from the label behind a stage on, each when it has saved another stage. -/
def passedFrom (env : Env) : Stage → Scanner → List Scanner
  | .postScan, s =>
      let s₁ := s.extentscan env
      let s₂ := s₁.unallocated env
      [s₁, s₂, s₂.dupes env]
  | .postExtentscan, s =>
      let s₂ := s.unallocated env
      [s₂, s₂.dupes env]
  | .postRemoveUnallocated, s => [s.dupes env]
  | .postRemoveDupes, _ => []

/-- The states of `scan`, each when it has saved another stage. -/
def passed (env : Env) (s : Scanner) : List Scanner :=
  match latest s.files with
  | some stage =>
      match s.inovec.loadFromPositions env stage.file s.files with
      | (.error _, _) => []
      | (.ok _, v) => passedFrom env stage { s with inovec := v }
  | none =>
      match s.doScan env with
      | (.error _, _) => []
      | (.ok _, s) => s.scanned :: passedFrom env .postScan s.scanned

/-- The files that a run leaves which finds `files` and is killed between two stages. -/
def Killed (dev : Device) (files files' : Files) : Prop :=
  ∃ env ok, env.device = dev ∧ ∃ s ∈ passed env ⟨start ok, files⟩, files' = s.files

/-- Runs from an empty progress directory, each of them killed between two stages. -/
def KilledRuns (dev : Device) : Files → Prop :=
  Relation.ReflTransGen (Killed dev) (fun _ => none)

end Scanner

theorem Behind.passed (h : Behind env l stage s) (hstamps : StampsSettled l) :
    ∀ s' ∈ Scanner.passedFrom env stage s, ∃ stage' : Stage, StageFiles l stage' s'.files := by
  cases stage with
  | postScan =>
    obtain ⟨hholds₁, h₁⟩ := h.extentscan hstamps
    obtain ⟨hholds₂, h₂⟩ := h₁.unallocated
    obtain ⟨hholds₃, _⟩ := h₂.dupes
    exact List.forall_mem_cons.mpr ⟨⟨_, hholds₁⟩, List.forall_mem_cons.mpr ⟨⟨_, hholds₂⟩,
      List.forall_mem_singleton.mpr ⟨_, hholds₃⟩⟩⟩
  | postExtentscan =>
    obtain ⟨hholds₂, h₂⟩ := h.unallocated
    obtain ⟨hholds₃, _⟩ := h₂.dupes
    exact List.forall_mem_cons.mpr ⟨⟨_, hholds₂⟩, List.forall_mem_singleton.mpr ⟨_, hholds₃⟩⟩
  | postRemoveUnallocated =>
    obtain ⟨hholds₃, _⟩ := h.dupes
    exact List.forall_mem_singleton.mpr ⟨_, hholds₃⟩
  | postRemoveDupes => exact List.forall_mem_nil _

/-- A run from any label on ends with what the last stage leaves, if it runs that stage. -/
theorem Behind.scanFrom (h : Behind env l stage s) (hstamps : StampsSettled l)
    (hstage : stage ≠ .postRemoveDupes) :
    (s.scanFrom env stage).inovec.views env = Stage.postRemoveDupes.left l ∧
      ∀ x, x ∈ l ↔ x ∈ (s.scanFrom env stage).inovec.views env ∨
        x ∈ (s.scanFrom env stage).inovec.invalidatedViews env := by
  have hend : ∀ t : Scanner, Behind env l .postRemoveUnallocated t →
      (t.dupes env).freeDinodes.inovec.views env = Stage.postRemoveDupes.left l ∧
        ∀ x, x ∈ l ↔ x ∈ (t.dupes env).freeDinodes.inovec.views env ∨
          x ∈ (t.dupes env).freeDinodes.inovec.invalidatedViews env := by
    intro t ht
    obtain ⟨_, hbehind, hviews⟩ := ht.dupes
    have hfree : (t.dupes env).freeDinodes.inovec.allViews env
        = (t.dupes env).inovec.allViews env := allViews_freeDinodes _
    obtain ⟨hviews', hinv'⟩ := Prod.mk.inj hfree
    refine ⟨hviews'.trans hviews, fun x => ?_⟩
    rw [hbehind.mem_iff x, ← hviews', ← hinv']
  cases stage with
  | postScan => exact hend _ (h.extentscan hstamps).2.unallocated.2
  | postExtentscan => exact hend _ h.unallocated.2
  | postRemoveUnallocated => exact hend _ h
  | postRemoveDupes => exact absurd rfl hstage

theorem onDevice_found {dev : Device} : ∀ x ∈ dev.found, x.OnDevice dev := by
  intro x hx
  obtain ⟨ino, hino, rfl⟩ := List.mem_map.mp hx
  obtain ⟨c, hc, hoff, hcon⟩ := dev.mem_sane hino
  have hsize := dev.getSizeBytes_eq
  have hslot : dev.Slot ino.byteOffset := ⟨by omega, by omega⟩
  refine ⟨hslot, rfl, ?_⟩
  show (constructByMode (dev.dinodeAt ino.byteOffset) ino.byteOffset).map _ = _
  rw [hcon]
  rfl

theorem Scanner.found_files (s : Scanner) (os : List Inode) {fn : ProgressFile}
    (hfn : fn ≠ .inoscan) : (s.found os).files fn = s.files fn := by
  induction os generalizing s with
  | nil => rfl
  | cons o os ih =>
    show ((s.foundInode o).found os).files fn = s.files fn
    rw [ih, foundInode_files, Function.update_of_ne hfn]

/-- **A scan from an empty progress directory** finds what the device holds. -/
theorem doScan_found (env : Env) (ok : Bool)
    (hbig : chunkBytes env.device ≤ env.device.getSizeBytes) :
    ∃ s, Scanner.doScan env ⟨start ok, fun _ => none⟩ = (.ok (), s) ∧ s.inovec.Ready env ∧
      s.inovec.views env = env.device.found ∧ s.inovec.invalidatedInodes = [] ∧
      s.files .inoscan = some (Istream.lines (env.device.found.map View.byteOffset)) ∧
      ∀ fn, fn ≠ .inoscan → s.files fn = none := by
  obtain ⟨hok, hcontents, hlog⟩ := Scanner.doScan_full env (fun _ => none) ok hbig rfl
  rcases hscan : Scanner.doScan env ⟨start ok, fun _ => none⟩ with ⟨r, s⟩
  rw [hscan] at hok hcontents hlog
  simp only at hok
  subst hok
  obtain ⟨hready, hinv, hon⟩ := Scanner.onDevice_doScan rfl hscan
  refine ⟨s, rfl, hready, views_eq_of_offsets ?_ (fun x hx => ?_) onDevice_found, hinv, ?_,
    fun fn hfn => ?_⟩
  · refine Scanner.map_byteOffset_view ?_
    show s.inovec.contents.map _ = _
    rw [hcontents, Device.found, List.map_map, List.map_map, List.map_map]
    rfl
  · obtain ⟨p, hp, rfl⟩ := List.mem_map.mp hx
    exact hon p hp
  · rw [hlog, Device.found, List.map_map]
    rfl
  · have hcb := Scanner.chunkBytes_bounds env.device
    have hrestore := Scanner.restore_none env (s := ⟨start ok, fun _ => none⟩) rfl
    rw [Scanner.doScan_from hbig hrestore ⟨rfl, by omega⟩] at hscan
    rw [← (Prod.mk.inj hscan).2, Scanner.found_files _ _ hfn]
    exact Function.update_of_ne hfn _ _

theorem behind_doScan (env : Env) (ok : Bool)
    (hbig : chunkBytes env.device ≤ env.device.getSizeBytes) :
    ∃ s, Scanner.doScan env ⟨start ok, fun _ => none⟩ = (.ok (), s) ∧
      StageFiles env.device.found .postScan s.scanned.files ∧
      Behind env env.device.found .postScan s.scanned := by
  obtain ⟨s, hscan, hready, hviews, hinv, -, hfiles⟩ := doScan_found env ok hbig
  have hintact : Intact env env.device.found s.inovec s.files := by
    refine ⟨hready, fun x => ?_, fun _ => hfiles _ (by decide)⟩
    rw [hviews, invalidatedViews, hinv]
    simp
  have hold : Stage.postScan.CanHold env.device.found (s.inovec.views env) := by
    rw [hviews]
    exact ⟨.refl, fun _ => rfl⟩
  exact ⟨s, hscan, hintact.save hold (fun st _ => hfiles _ (by cases st <;> decide))⟩

/-- What a run ends with that starts from an empty progress directory. -/
theorem exists_uninterrupted {env : Env} (hbig : chunkBytes env.device ≤ env.device.getSizeBytes)
    (ok : Bool) : ∃ s, Scanner.scan env ⟨start ok, fun _ => none⟩ = (.ok (), s) ∧
      s.inovec.views env = Stage.postRemoveDupes.left env.device.found := by
  obtain ⟨s, hscan, hready, hviews, hinv, -, -⟩ := doScan_found env ok hbig
  have hall : s.scanned.inovec.allViews env = (env.device.found, []) := by
    show (s.inovec.views env, s.inovec.invalidatedInodes.map _) = _
    rw [hviews, hinv]
    rfl
  refine ⟨_, Scanner.scan_of_doScan (s := ⟨start ok, fun _ => none⟩) rfl hscan, ?_⟩
  have hrun := Scanner.scanFrom_allViews (s := s.scanned) hready .postScan
  rw [hall] at hrun
  exact congrArg Prod.fst hrun

theorem views_uninterrupted {env : Env} (hbig : chunkBytes env.device ≤ env.device.getSizeBytes)
    (ok : Bool) :
    (Scanner.scan env ⟨start ok, fun _ => none⟩).2.inovec.views env
      = Stage.postRemoveDupes.left env.device.found := by
  obtain ⟨s, hscan, hviews⟩ := exists_uninterrupted hbig ok
  rw [hscan]
  exact hviews

/-! ### Any number of runs -/

/-- The files of an empty progress directory, or those of a stage. -/
def HoldsSome (l : List View) (files : Files) : Prop :=
  files = (fun _ => none) ∨ ∃ stage : Stage, StageFiles l stage files

variable {dev : Device}

theorem foldl_select_nil (sels : List Selection) {a : List View × List View} (ha : a.1 = []) :
    (sels.foldl select a).1 = [] := by
  induction sels generalizing a with
  | nil => exact ha
  | cons sel sels ih =>
    rw [List.foldl_cons]
    refine ih ?_
    rw [select, ha]
    rfl

theorem left_ne_nil (hkept : Stage.postRemoveDupes.left l ≠ []) (stage : Stage) :
    stage.left l ≠ [] := by
  intro hnil
  have hrest : Stage.postRemoveDupes.left l
      = (stage.remaining.foldl select (stage.done.foldl select (l, []))).1 := by
    rw [← List.foldl_append]
    cases stage <;> rfl
  exact hkept (hrest.trans (foldl_select_nil _ hnil))

theorem left_subset (stage : Stage) (l : List View) : stage.left l ⊆ l := by
  have hselect : ∀ (sels : List Selection) (a : List View × List View),
      (sels.foldl select a).1 ⊆ a.1 := by
    intro sels
    induction sels with
    | nil => exact fun a => List.Subset.refl a.1
    | cons sel sels ih =>
      intro a
      exact fun y hy => (keepAt_sublist _ _).subset (ih (select a sel) hy)
  exact hselect stage.done (l, [])

/-- **What a killed run leaves.** -/
theorem holdsSome_killed (hbig : chunkBytes dev ≤ dev.getSizeBytes)
    (hkept : Stage.postRemoveDupes.left dev.found ≠ []) (hstamps : StampsSettled dev.found)
    {files' : Files} (h : HoldsSome dev.found files) (hkill : Scanner.Killed dev files files') :
    HoldsSome dev.found files' := by
  obtain ⟨env, ok, rfl, s, hs, rfl⟩ := hkill
  refine Or.inr ?_
  rw [Scanner.passed] at hs
  rcases h with rfl | ⟨stage, hholds⟩
  · obtain ⟨s₀, hscan, hholds, hbehind⟩ := behind_doScan env ok hbig
    have hnone : Scanner.latest (fun _ => none) = none := rfl
    simp only [hnone, hscan] at hs
    rcases List.mem_cons.mp hs with rfl | hs
    · exact ⟨_, hholds⟩
    · exact hbehind.passed hstamps s hs
  · obtain ⟨v, _, _, hload, hbehind, _⟩ :=
      hholds.load onDevice_found (left_ne_nil hkept stage) ok
    simp only [hholds.latest, hload] at hs
    exact hbehind.passed hstamps s hs

theorem holdsSome_of_killedRuns (hbig : chunkBytes dev ≤ dev.getSizeBytes)
    (hkept : Stage.postRemoveDupes.left dev.found ≠ []) (hstamps : StampsSettled dev.found)
    (hkills : Scanner.KilledRuns dev files) : HoldsSome dev.found files := by
  induction hkills with
  | refl => exact Or.inl rfl
  | tail _ hkill ih => exact holdsSome_killed hbig hkept hstamps ih hkill

theorem Scanner.scan_of_load {v w : InodeVector} (hlatest : latest files = some stage)
    (hload : loadFromPositions env stage.file files v = (.ok (), w)) :
    scan env ⟨v, files⟩ = (.ok (), scanFrom env stage ⟨w, files⟩) := by
  rw [scan]
  simp only [hlatest, hload]

/-- What a run ends with, after any number of killed runs. -/
theorem scan_of_killedRuns (hbig : chunkBytes dev ≤ dev.getSizeBytes)
    (hkept : Stage.postRemoveDupes.left dev.found ≠ []) (hstamps : StampsSettled dev.found)
    (hkills : Scanner.KilledRuns dev files) (henv : env.device = dev) (ok : Bool) :
    ∃ s, Scanner.scan env ⟨start ok, files⟩ = (.ok (), s) ∧
      s.inovec.views env = Stage.postRemoveDupes.left dev.found ++
        (if Scanner.latest files = some .postRemoveDupes
          then (Stage.postRemoveDupes.left dev.found).getLast?.toList else []) ∧
      ∀ x, x ∈ dev.found ↔ x ∈ s.inovec.views env ∨ x ∈ s.inovec.invalidatedViews env := by
  subst henv
  rcases holdsSome_of_killedRuns hbig hkept hstamps hkills with rfl | ⟨stage, hholds⟩
  · obtain ⟨s₀, hscan, -, hbehind⟩ := behind_doScan env ok hbig
    obtain ⟨hviews, hmem⟩ := hbehind.scanFrom hstamps (by decide)
    have hnone : Scanner.latest (fun _ => none) ≠ some .postRemoveDupes := by decide
    rw [if_neg hnone, List.append_nil]
    exact ⟨_, Scanner.scan_of_doScan (s := ⟨start ok, fun _ => none⟩) rfl hscan, hviews, hmem⟩
  · obtain ⟨v, m, x, hload, hbehind, hm, hx, hviews⟩ :=
      hholds.load onDevice_found (left_ne_nil hkept stage) ok
    refine ⟨_, Scanner.scan_of_load hholds.latest hload, ?_⟩
    by_cases hstage : stage = .postRemoveDupes
    · subst hstage
      obtain rfl := hm.exact (by decide)
      rw [if_pos hholds.latest, hx]
      exact ⟨hviews, hbehind.mem_iff⟩
    · obtain ⟨hviews', hmem'⟩ := hbehind.scanFrom hstamps hstage
      have hother : Scanner.latest files ≠ some .postRemoveDupes := by
        rw [hholds.latest]
        exact fun h => hstage (Option.some.inj h)
      rw [if_neg hother, List.append_nil]
      exact ⟨hviews', hmem'⟩

/-- **After any number of killed runs, a run ends with what an uninterrupted one ends with**: the
same inodes in the same order, with a copy of the last one only if it finds all stages done, and
none of the inodes of the scan is lost. -/
theorem scan_after_kills (hbig : chunkBytes dev ≤ dev.getSizeBytes)
    (hkept : Stage.postRemoveDupes.left dev.found ≠ []) (hstamps : StampsSettled dev.found)
    (hkills : Scanner.KilledRuns dev files) (henv : env.device = dev) (ok : Bool) :
    let uninterrupted := (Scanner.scan env ⟨start ok, fun _ => none⟩).2.inovec
    let run := Scanner.scan env ⟨start ok, files⟩
    run.1 = .ok () ∧
      run.2.inovec.views env = uninterrupted.views env ++
        (if Scanner.latest files = some .postRemoveDupes
          then (uninterrupted.views env).getLast?.toList else []) ∧
      ∀ x, x ∈ run.2.inovec.views env ∨ x ∈ run.2.inovec.invalidatedViews env ↔
        x ∈ uninterrupted.views env ∨ x ∈ uninterrupted.invalidatedViews env := by
  intro uninterrupted run
  obtain ⟨s₀, hscan₀, hviews₀, hmem₀⟩ :=
    scan_of_killedRuns hbig hkept hstamps (.refl : Scanner.KilledRuns dev _) henv ok
  obtain ⟨s, hscan, hviews, hmem⟩ := scan_of_killedRuns hbig hkept hstamps hkills henv ok
  have hrun : run = (.ok (), s) := hscan
  have huninterrupted : uninterrupted = s₀.inovec := congrArg (fun r => r.2.inovec) hscan₀
  have hnone : Scanner.latest (fun _ => none) ≠ some .postRemoveDupes := by decide
  rw [if_neg hnone, List.append_nil] at hviews₀
  rw [hrun, huninterrupted, hviews₀]
  refine ⟨rfl, hviews, fun x => ?_⟩
  rw [← hviews₀, ← hmem₀, ← hmem]

theorem stampKept_of_length_lt (hl : l.length < 100) : stampKept l = none := by
  cases hs : stampKept l with
  | none => rfl
  | some stamp =>
    have hcount := ((dominantInostamp_eq_some _ stamp).mp hs).2.1
    have hle : (l.map (fun x => x.dinode.diInostamp)).count stamp ≤ _ := List.count_le_length
    rw [List.length_map] at hle
    omega

theorem stampsSettled_of_length_lt (hl : l.length < 99) : StampsSettled l := by
  intro x _
  rw [stampKept_of_length_lt, stampKept_of_length_lt]
  · omega
  · rw [List.length_append, List.length_singleton]
    omega

def extentDisk : Env :=
  { Scanner.oneChunk.device with
    data := fun k => if k < 16384 then Scanner.oneChunk.device.data k else 0 }.zeroed

theorem found_extentDisk : extentDisk.device.found = (extentDisk.device.sane 0 32).map (fun ino =>
    ⟨ino.kind, ino.byteOffset, ino.diNumber, ino.parentDiNumber,
      extentDisk.device.dinodeAt ino.byteOffset⟩) := by
  have hsize : extentDisk.device.getSizeBytes / 512 = 32 + (2 ^ 15 - 32) := by decide
  have hrest : extentDisk.device.sane (0 + 32 * 512) (2 ^ 15 - 32) = [] :=
    Device.sane_of_zero (fun k hk => if_neg (by omega)) _
  rw [Device.found, hsize, Device.sane_add, hrest, List.append_nil]

theorem length_found_extentDisk : extentDisk.device.found.length = 32 := by
  rw [found_extentDisk]
  decide +kernel

theorem stampsSettled_extentDisk : StampsSettled extentDisk.device.found :=
  stampsSettled_of_length_lt (by rw [length_found_extentDisk]; decide)

theorem last_extentDisk : (Stage.postRemoveDupes.left extentDisk.device.found).getLast?.map
    View.diNumber = some 31 := by
  rw [found_extentDisk]
  decide +kernel

theorem kept_extentDisk : Stage.postRemoveDupes.left extentDisk.device.found ≠ [] := by
  intro hnil
  have hlast := last_extentDisk
  rw [hnil] at hlast
  cases hlast

theorem exists_killed {env : Env} (hbig : chunkBytes env.device ≤ env.device.getSizeBytes)
    (hstamps : StampsSettled env.device.found) :
    ∃ files, Scanner.Killed env.device (fun _ => none) files ∧
      StageFiles env.device.found .postRemoveDupes files := by
  obtain ⟨s, hscan, _, hbehind⟩ := behind_doScan env true hbig
  have hdupes := (hbehind.extentscan hstamps).2.unallocated.2.dupes
  have hpassed : Scanner.passed env ⟨start true, fun _ => none⟩
      = s.scanned :: Scanner.passedFrom env .postScan s.scanned := by
    have hnone : Scanner.latest (fun _ => none) = none := rfl
    rw [Scanner.passed]
    simp only [hnone, hscan]
  refine ⟨_, ⟨env, true, rfl, _, ?_, rfl⟩, hdupes.1⟩
  rw [hpassed]
  simp [Scanner.passedFrom]

theorem killedRuns_extentDisk : ∃ files, Scanner.KilledRuns extentDisk.device files ∧
    Scanner.latest files = some .postRemoveDupes := by
  obtain ⟨files, hkill, hstage⟩ := exists_killed (by decide) stampsSettled_extentDisk
  exact ⟨files, .single hkill, hstage.latest⟩

/-- A second run, behind one that has saved all stages, has one inode more. -/
theorem scan_after_kills_extentDisk :
    ∃ files, Scanner.KilledRuns extentDisk.device files ∧
      Scanner.latest files = some .postRemoveDupes ∧
      ((Scanner.scan extentDisk ⟨start true, files⟩).2.inovec.views extentDisk).length
        = ((Scanner.scan extentDisk ⟨start true, fun _ => none⟩).2.inovec.views extentDisk).length
          + 1 := by
  obtain ⟨files, hkills, hlatest⟩ := killedRuns_extentDisk
  obtain ⟨_, hviews, _⟩ := scan_after_kills (by decide) kept_extentDisk stampsSettled_extentDisk
    hkills (rfl : extentDisk.device = extentDisk.device) true
  refine ⟨files, hkills, hlatest, ?_⟩
  rw [hviews, if_pos hlatest, List.length_append,
    views_uninterrupted (by decide)]
  obtain ⟨x, hx⟩ := Option.isSome_iff_exists.mp (List.getLast?_isSome.mpr kept_extentDisk)
  rw [hx]
  rfl

end Jfsrec
