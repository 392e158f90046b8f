import Jfsrec.Names
import Jfsrec.Restarts
import Jfsrec.ScanRun

/-!
# From the scan to the recovery

The recovery relies on three things about the vector that it gets: that numbers can be looked up
in it, that its inodes have no parents and no names yet, and that none stands in it twice.  A scan
leaves such a vector, also after runs that were killed, `handed_scan`.
-/

namespace Jfsrec

open Lib InodeVector Recoverer

/-- What the recovery relies on. -/
structure Handed (env : Env) (v : InodeVector) : Prop where
  indexed : v.Indexed env
  unnamed : Unnamed v.heap
  nodup : v.inodes.Nodup

/-- No parents and no names, and no null pointers. -/
structure Fresh (v : InodeVector) : Prop extends Unnamed v.heap where
  notNull : NULL ∉ v.inodes ++ v.invalidatedInodes

variable {env : Env} {v w : InodeVector} {h h' : Heap}

/-! ### Inodes as their constructors left them -/

theorem Recoverer.Unnamed.same (hu : Unnamed h) (hs : Heap.Same env h h') : Unnamed h' := by
  have hlinks : ∀ p, h'.links p = h.links p := fun p => congrFun hs.links p
  refine ⟨fun p => ?_, fun p => ?_⟩
  · exact (congrArg Prod.fst (hlinks p)).trans (hu.unlinked p)
  · exact (congrArg Prod.snd (hlinks p)).trans (hu.unnamed p)

theorem Recoverer.Unnamed.foldl_addBuilt {push : InodeVector → Ptr → InodeVector}
    {sel oth : InodeVector → List Ptr} (hp : Pushes push sel oth) {os : List (Option Inode)}
    (hos : ∀ o ∈ os, ∀ ino ∈ o, ∃ ip offset, constructByMode ip offset = some ino) :
    ∀ {v : InodeVector}, Unnamed v.heap → Unnamed (os.foldl (addBuilt push) v).heap := by
  induction os with
  | nil => exact fun {v} hv => hv
  | cons o os ih =>
    intro v hv
    obtain ⟨ho, hos⟩ := List.forall_mem_cons.mp hos
    refine ih hos ?_
    cases o with
    | none =>
      rw [addBuilt, hp.heap]
      exact hv
    | some ino =>
      obtain ⟨ip, offset, hino⟩ := ho ino rfl
      obtain ⟨kind, rfl⟩ := constructByMode_eq_some hino
      rw [addBuilt, hp.heap]
      refine ⟨fun p => ?_, fun p => ?_⟩
      · show ((v.heap.alloc _).obj p).parent = NULL
        rw [Heap.alloc_obj]
        split
        · rfl
        · exact hv.unlinked p
      · show ((v.heap.alloc _).obj p).name = []
        rw [Heap.alloc_obj]
        split
        · rfl
        · exact hv.unnamed p

theorem unnamed_start (ok : Bool) : Unnamed (start ok).heap := ⟨fun _ => rfl, fun _ => rfl⟩

theorem unnamed_loaded (env : Env) (ns ms : List ℕ) (ok : Bool) :
    Unnamed (loaded env ns ms (start ok)).heap := by
  have hos : ∀ ks : List ℕ, ∀ o ∈ ks.map (built env), ∀ ino ∈ o,
      ∃ ip offset, constructByMode ip offset = some ino := by
    intro ks o ho ino hino
    obtain ⟨k, _, rfl⟩ := List.mem_map.mp ho
    exact built_eq_some hino
  have hfirst : Unnamed ((ns.map (built env)).foldl (addBuilt pushInode) (start ok)).heap :=
    (unnamed_start ok).foldl_addBuilt pushes_pushInode (hos ns)
  exact hfirst.foldl_addBuilt pushes_pushInvalidated (hos ms)

theorem notNull_loaded {l l' : List View} (hon : ∀ x ∈ l ++ l', x.OnDevice env.device) (ok : Bool) :
    let v := loaded env (l.map View.byteOffset) (l'.map View.byteOffset) (start ok)
    NULL ∉ v.inodes ++ v.invalidatedInodes := by
  intro v
  have hnot : ∀ {ps : List Ptr} {ks : List View}, (∀ x ∈ ks, x.OnDevice env.device) →
      ps.map v.heap.objOf = (ks.map View.byteOffset).map (built env) → NULL ∉ ps := by
    intro ps ks hks hps hnull
    have hmem : v.heap.objOf NULL ∈ (ks.map View.byteOffset).map (built env) := by
      rw [← hps]
      exact List.mem_map_of_mem hnull
    obtain ⟨o, ho, hbuilt⟩ := List.mem_map.mp hmem
    obtain ⟨x, hx, rfl⟩ := List.mem_map.mp ho
    obtain ⟨ino, hino, _⟩ := Option.map_eq_some_iff.mp (hks x hx).built
    rw [built_of_slot (hks x hx).slot, hino] at hbuilt
    cases hbuilt
  obtain ⟨hcon, hcon'⟩ := contents_loaded env (l.map View.byteOffset) (l'.map View.byteOffset) ok
  rw [List.mem_append, not_or]
  exact ⟨hnot (fun x hx => hon x (List.mem_append_left _ hx)) hcon,
    hnot (fun x hx => hon x (List.mem_append_right _ hx)) hcon'⟩

/-! ### Through the stages -/

theorem Fresh.selects {sel : Selection} (hv : Fresh v) (hs : Selects env sel v w) : Fresh w := by
  have hmem : ∀ p, p ∈ w.inodes ++ w.invalidatedInodes ↔ p ∈ v.inodes ++ v.invalidatedInodes := by
    intro p
    have hperm := (keepAt_perm (sel (v.views env)) v.inodes).mem_iff (a := p)
    rw [List.mem_append] at hperm
    rw [hs.inodes, hs.invalidatedInodes, List.mem_append, List.mem_append, List.mem_append, ← hperm]
    tauto
  exact ⟨hv.toUnnamed.same hs.same, fun hnull => hv.notNull ((hmem NULL).mp hnull)⟩

theorem Fresh.freeDinodes (env : Env) (hv : Fresh v) : Fresh v.freeDinodes := by
  have hs : Heap.Same env v.heap v.freeDinodes.heap :=
    same_foldl (fun _ _ => Heap.cacheSame_freeDinode.toSame) v.inodes v.heap
  exact ⟨hv.toUnnamed.same hs, hv.notNull⟩

variable {s : Scanner}

/-- **No stage sets a parent or a name.** -/
theorem Fresh.scanFrom (hv : Fresh s.inovec) (hready : s.inovec.Ready env) (stage : Stage) :
    Fresh (s.scanFrom env stage).inovec := by
  have hdupes : ∀ {v : InodeVector}, v.Ready env → Fresh v →
      Fresh (v.removeDupes env).freeDinodes :=
    fun hready hv => (hv.selects (removeDupes_selects hready)).freeDinodes env
  have hunalloc : ∀ {v : InodeVector}, v.Ready env → Fresh v →
      Fresh ((v.removeUnallocated env).removeDupes env).freeDinodes := by
    intro v hready hv
    have hs := removeUnallocated_selects hready
    exact hdupes (hs.ready hready) (hv.selects hs)
  cases stage with
  | postScan =>
    have hs₁ := filterInostamps_selects hready
    have hs₂ := detectInoExtents_selects (hs₁.ready hready)
    exact hunalloc (hs₂.ready (hs₁.ready hready)) ((hv.selects hs₁).selects hs₂)
  | postExtentscan => exact hunalloc hready hv
  | postRemoveUnallocated => exact hdupes hready hv
  | postRemoveDupes => exact hv

theorem fresh_doScan {ok : Bool} {files : Files} (hfile : files .inoscan = none)
    (hscan : Scanner.doScan env ⟨start ok, files⟩ = (.ok (), s)) : Fresh s.inovec := by
  obtain ⟨hready, hinv, -⟩ := Scanner.onDevice_doScan hfile hscan
  refine ⟨?_, ?_⟩
  · have hbig : chunkBytes env.device ≤ env.device.getSizeBytes := by
      by_contra hsmall
      refine Scanner.not_ok_of_small (s := ⟨start ok, files⟩) (Nat.lt_of_not_le hsmall) ?_
      rw [hscan]
    have hcb := Scanner.chunkBytes_bounds env.device
    rw [Scanner.doScan_from hbig (Scanner.restore_none env hfile) ⟨rfl, by omega⟩] at hscan
    rw [← (Prod.mk.inj hscan).2, Scanner.found_inovec]
    refine (unnamed_start ok).foldl_addBuilt pushes_addInode (fun o ho ino hino => ?_)
    obtain ⟨ino', hmem, rfl⟩ := List.mem_map.mp ho
    obtain rfl := Option.some.inj hino
    obtain ⟨c, _, _, hcon⟩ := env.device.mem_sane hmem
    exact ⟨_, _, hcon⟩
  · rw [hinv, List.append_nil]
    exact fun hnull => hready.notNull _ hnull rfl

/-! ### After a scan -/

theorem handed_of_fresh {ok : Bool} {files : Files}
    (hscan : Scanner.scan env ⟨start ok, files⟩ = (.ok (), s)) (hv : Fresh s.inovec) :
    Handed env s.inovec := by
  have hsteps := Scanner.scanSteps_scan (s := ⟨start ok, files⟩) (sound_start env ok)
  rw [hscan] at hsteps
  have hsound := (sound_start env ok).steps hsteps
  refine ⟨hsound.indexed (Scanner.scan_ok hscan) hv.notNull, hv.toUnnamed,
    (hsound.ready (fun p hp => ?_)).nodup⟩
  rintro rfl
  exact hv.notNull (List.mem_append_left _ hp)

theorem fresh_loaded {l l' : List View} (hon : ∀ x ∈ l ++ l', x.OnDevice env.device) (ok : Bool) :
    Fresh (loaded env (l.map View.byteOffset) (l'.map View.byteOffset) (start ok)) :=
  ⟨unnamed_loaded env _ _ ok, notNull_loaded hon ok⟩

/-- **A scan leaves what the recovery relies on**, also after runs that were killed. -/
theorem handed_scan {files : Files} {dev : Device} (hbig : chunkBytes dev ≤ dev.getSizeBytes)
    (hkept : Stage.postRemoveDupes.left dev.found ≠ []) (hstamps : StampsSettled dev.found)
    (hkills : Scanner.KilledRuns dev files) (henv : env.device = dev) (ok : Bool) :
    Handed env (Scanner.scan env ⟨start ok, files⟩).2.inovec := by
  subst henv
  have hrun : ∃ s, Scanner.scan env ⟨start ok, files⟩ = (.ok (), s) ∧ Fresh s.inovec := by
    rcases holdsSome_of_killedRuns hbig hkept hstamps hkills with rfl | ⟨stage, hholds⟩
    · obtain ⟨s₀, hscan, -, hbehind⟩ := behind_doScan env ok hbig
      refine ⟨_, Scanner.scan_of_doScan (s := ⟨start ok, fun _ => none⟩) rfl hscan, ?_⟩
      exact (fresh_doScan rfl hscan).scanFrom (s := s₀.scanned) hbehind.ready .postScan
    · obtain ⟨m, inv, x, -, -, -, -, hon, hload⟩ :=
        hholds.loads onDevice_found (left_ne_nil hkept stage)
      obtain ⟨hready, -⟩ := allViews_loaded hon ok
      refine ⟨_, Scanner.scan_of_load hholds.latest (hload _), ?_⟩
      exact (fresh_loaded hon ok).scanFrom (s := ⟨_, files⟩) hready stage
  obtain ⟨s, hs, hfresh⟩ := hrun
  rw [hs]
  exact handed_of_fresh hs hfresh

end Jfsrec
