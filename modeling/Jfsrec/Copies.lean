import Jfsrec.Handover

/-!
# The copy of the last inode

A run that finds all stages done goes to the recovery with the last inode of the file twice,
`scan_after_kills`.  A number finds the first of the two, so the copy is never found: no listing
names it, and it is called by its number.  But it stands behind the first and lists the same names
once more, and the last listing wins: what the first lists goes to the copy, `copy_takes_over`.
-/

namespace Jfsrec

open Lib InodeVector

namespace Recoverer

variable {env : Env} {names : Ptr → List InodeName} {v : InodeVector} {front l l' : List Ptr}
  {p q x : Ptr} {h : Heap}

def associate (env : Env) (names : Ptr → List InodeName) (v : InodeVector) : Option InodeVector :=
  (findDirectoryParents env v).bind (findFileParentsAndNames env names)

def withoutLast (v : InodeVector) : InodeVector := { v with inodes := v.inodes.dropLast }

structure Copied (env : Env) (names : Ptr → List InodeName) (front : List Ptr) (p q : Ptr)
    (v : InodeVector) : Prop where
  inodes : v.inodes = front ++ [p, q]
  nodup : v.inodes.Nodup
  view : v.heap.view env q = v.heap.view env p
  names : names q = names p

/-! ### What numbers find -/

/-- **A copy is not found by its number.** -/
theorem newest_echo (he : Echo front p q l l') (hview : h.view env q = h.view env p) (d : ℕ) :
    newest env h l' d = newest env h l d := by
  obtain ⟨rest, rfl, rfl⟩ := he
  have hnum : (h.obj q).diNumber = (h.obj p).diNumber := congrArg View.diNumber hview
  have htime : otime env h q = otime env h p := congrArg View.otime hview
  induction rest using List.reverseRecOn with
  | nil =>
    have hlist : front ++ [p, q] = front ++ [p] ++ [q] := by simp
    rw [hlist, newest_append (front ++ [p]), hnum]
    by_cases hd : (h.obj p).diNumber = d
    · rw [if_pos hd, newest_append, if_pos hd, htime]
      -- the first of the two is as new, or something before it is
      cases newest env h front d with
      | none => exact if_neg (lt_irrefl _)
      | some r =>
        dsimp only
        by_cases hlt : otime env h r < otime env h p
        · rw [if_pos hlt]
          exact if_neg (lt_irrefl _)
        · rw [if_neg hlt]
          exact if_neg hlt
    · rw [if_neg hd]
  | append_singleton rest r ih =>
    have hassoc : ∀ k : List Ptr, front ++ p :: (k ++ [r]) = front ++ p :: k ++ [r] := by simp
    have hassoc' : front ++ p :: q :: (rest ++ [r]) = front ++ p :: q :: rest ++ [r] := by simp
    rw [hassoc, hassoc', newest_append, newest_append, ih]

namespace Copied

theorem number (hc : Copied env names front p q v) : v.heap.number q = v.heap.number p :=
  congrArg View.diNumber hc.view

theorem kind (hc : Copied env names front p q v) : (v.heap.obj q).kind = (v.heap.obj p).kind :=
  congrArg View.kind hc.view

theorem parentDiNumber (hc : Copied env names front p q v) :
    (v.heap.obj q).parentDiNumber = (v.heap.obj p).parentDiNumber :=
  congrArg View.parentDiNumber hc.view

theorem isDir_iff (hc : Copied env names front p q v) : v.heap.isDir q ↔ v.heap.isDir p := by
  rw [Heap.isDir, Heap.isDir, hc.kind]

theorem dotdot (hc : Copied env names front p q v) : dotdot v.heap q = dotdot v.heap p := by
  rw [Recoverer.dotdot, Recoverer.dotdot, hc.parentDiNumber]
  exact if_congr hc.isDir_iff rfl rfl

theorem dropLast (hc : Copied env names front p q v) : v.inodes.dropLast = front ++ [p] := by
  have hlist : front ++ [p, q] = front ++ [p] ++ [q] := by simp
  rw [hc.inodes, hlist, List.dropLast_concat]

theorem echo (hc : Copied env names front p q v) :
    Echo front p q (withoutLast v).inodes v.inodes :=
  ⟨[], hc.dropLast, hc.inodes⟩

/-- **The copy brings nobody else up.** -/
theorem echo_parentClosure (hc : Copied env names front p q v) :
    Echo front p q (parentClosure env (withoutLast v)) (parentClosure env v) :=
  hc.echo.closure (fun _ _ => store_number) hc.number hc.dotdot store_mem

theorem echo_recovered (hc : Copied env names front p q v) :
    Echo front p q (recovered env names (withoutLast v)) (recovered env names v) := by
  have hlisted : listed names q = listed names p := by
    rw [listed, listed, hc.names]
  exact hc.echo_parentClosure.closure (fun _ _ => store_number) hc.number hlisted store_mem

theorem newest_recovered (hc : Copied env names front p q v) :
    newest env v.heap (recovered env names v)
      = newest env v.heap (recovered env names (withoutLast v)) := by
  funext d
  exact newest_echo hc.echo_recovered hc.view d

/-! ### Who claims what -/

/-- **What the first of the two would have listed last is listed last by the copy.** -/
theorem lastEntry_eq (hc : Copied env names front p q v) (x : Ptr) :
    lastEntry env names v x = (lastEntry env names (withoutLast v) x).map
      (fun c => if c.1 = p then (q, c.2) else c) := by
  have hnodup : (recovered env names v).Nodup := nodup_recovered hc.nodup
  obtain ⟨rest, hlist, hlist'⟩ := hc.echo_recovered
  rw [hlist'] at hnodup
  have hclaims : claims names q = (claims names p).map (fun c => (q, c.2)) := by
    rw [claims, claims, hc.names, List.map_map]
    rfl
  have hfst : ∀ ds : List Ptr, p ∉ ds → ∀ c ∈ ds.flatMap (claims names), c.1 ≠ p := by
    intro ds hds c hmem
    obtain ⟨d, hd, hmem⟩ := List.mem_flatMap.mp hmem
    obtain ⟨e, _, rfl⟩ := List.mem_map.mp hmem
    rintro rfl
    exact hds hd
  have hself : ∀ c ∈ claims names p, c.1 = p := by
    intro c hmem
    obtain ⟨e, _, rfl⟩ := List.mem_map.mp hmem
    rfl
  obtain ⟨-, hback, hfront⟩ := List.nodup_append.mp hnodup
  have hbefore := hfst front (fun hp => hfront p hp p (by simp) rfl)
  have hbehind := hfst rest (fun hp => (List.nodup_cons.mp hback).1 (List.mem_cons_of_mem q hp))
  unfold lastEntry
  show lastFor _ _ x = (lastFor (target (newest env v.heap _)) _ x).map _
  rw [hc.newest_recovered, hlist, hlist']
  generalize newest env v.heap (front ++ p :: rest) = find
  simp only [List.flatMap_append, List.flatMap_cons, hclaims, lastFor_append_list]
  have hcopy : lastFor (target find) ((claims names p).map (fun c => (q, c.2))) x
      = (lastFor (target find) (claims names p) x).map (fun c => (q, c.2)) := lastFor_map _ _
  rw [hcopy]
  cases hr : lastFor (target find) (rest.flatMap (claims names)) x with
  | some c => simp [hbehind c (lastFor_mem hr).1]
  | none =>
    cases hp : lastFor (target find) (claims names p) x with
    | some c => simp [hself c (lastFor_mem hp).1]
    | none =>
      cases hf : lastFor (target find) (front.flatMap (claims names)) x with
      | some c => simp [hbefore c (lastFor_mem hf).1]
      | none => rfl

theorem notMem (hc : Copied env names front p q v) :
    p ∉ front ∧ q ∉ recovered env names (withoutLast v) := by
  have hnodup : (recovered env names v).Nodup := nodup_recovered hc.nodup
  obtain ⟨rest, hlist, hlist'⟩ := hc.echo_recovered
  rw [hlist'] at hnodup
  obtain ⟨-, hback, hfront⟩ := List.nodup_append.mp hnodup
  have hq := (List.nodup_cons.mp (List.nodup_cons.mp hback).2).1
  have hpq : p ≠ q := fun h => (List.nodup_cons.mp hback).1 (h ▸ List.mem_cons_self)
  refine ⟨fun hp => hfront p hp p (by simp) rfl, ?_⟩
  rw [hlist, List.mem_append, List.mem_cons]
  rintro (hf | rfl | hr)
  · exact hfront q hf q (by simp) rfl
  · exact hpq rfl
  · exact hq hr

theorem lastEntry_copy (hc : Copied env names front p q v) : lastEntry env names v q = none := by
  refine lastFor_eq_none.mpr (fun c _ hc' => hc.notMem.2 ?_)
  rw [target, hc.newest_recovered] at hc'
  exact (newest_mem hc').1

theorem label_eq (hc : Copied env names front p q v) (x : Ptr) :
    label env names v x = label env names (withoutLast v) x := by
  have hroot : isOriginalRoot env names v x ↔ isOriginalRoot env names (withoutLast v) x := by
    rw [isOriginalRoot, hc.newest_recovered]
    rfl
  have hname : (lastEntry env names v x).elim [] (fun c => c.2.name)
      = (lastEntry env names (withoutLast v) x).elim [] (fun c => c.2.name) := by
    rw [hc.lastEntry_eq]
    cases lastEntry env names (withoutLast v) x with
    | none => rfl
    | some c =>
      rw [Option.map_some, Option.elim_some, Option.elim_some]
      split <;> rfl
  rw [label, label, hname]
  exact if_congr hroot rfl rfl

theorem label_copy (hc : Copied env names front p q v) :
    label env names v q = Nat.toDigits 10 (v.heap.number p) := by
  have hroot : ¬ isOriginalRoot env names v q := by
    intro hroot
    rw [isOriginalRoot, hc.newest_recovered] at hroot
    exact hc.notMem.2 (newest_mem hroot).1
  rw [label, if_neg hroot, hc.lastEntry_copy, hc.number]
  rfl

theorem mem_askedBefore (hc : Copied env names front p q v) (hx : x ≠ q) {d : ℕ} :
    d ∈ askedBefore v (parentClosure env v) x
      ↔ d ∈ askedBefore (withoutLast v) (parentClosure env (withoutLast v)) x := by
  have hbefore := fun c => hc.echo_parentClosure.mem_before hc.notMem.1 hx (c := c)
  rw [askedBefore, askedBefore, List.mem_append, List.mem_append, hc.echo.known_iff hc.number]
  refine or_congr_right ?_
  simp only [List.mem_flatMap, hbefore]
  constructor
  · rintro ⟨c, hmem | ⟨rfl, hmem⟩, hd⟩
    · exact ⟨c, hmem, hd⟩
    · exact ⟨p, hmem, hc.dotdot ▸ hd⟩
  · rintro ⟨c, hmem, hd⟩
    exact ⟨c, Or.inl hmem, hd⟩

theorem adopted_eq (hc : Copied env names front p q v) (hx : x ≠ q) :
    adopted env v (parentClosure env v) x
      = adopted env (withoutLast v) (parentClosure env (withoutLast v)) x := by
  rw [adopted, adopted, newest_echo hc.echo_parentClosure hc.view]
  simp only [hc.mem_askedBefore hx]
  rfl

/-- **Whoever is listed last by the first of the two goes to the copy.** -/
theorem claimant_eq (hc : Copied env names front p q v) (hx : x ≠ q) :
    claimant env names v x = if (lastEntry env names (withoutLast v) x).any (fun c => c.1 = p)
      then some q else claimant env names (withoutLast v) x := by
  have hmem : x ∈ parentClosure env v ↔ x ∈ parentClosure env (withoutLast v) := by
    obtain ⟨rest, hlist, hlist'⟩ := hc.echo_parentClosure
    rw [hlist, hlist']
    simp [hx]
  have hlast := hc.lastEntry_eq x
  unfold claimant
  unfold lastEntry at hlast ⊢
  rw [hlast]
  cases lastFor (target (newest env (withoutLast v).heap (recovered env names (withoutLast v))))
      ((recovered env names (withoutLast v)).flatMap (claims names)) x with
  | none =>
    rw [hc.adopted_eq hx, Option.any_none, if_neg Bool.false_ne_true]
    exact if_congr hmem rfl rfl
  | some c =>
    by_cases hp : c.1 = p
    · simp [hp]
    · simp [hp]

/-- The copy has what its `idotdot` finds as its parent, if that is no regular file: the first of
the two has asked for the number before. -/
theorem claimant_copy (hc : Copied env names front p q v) :
    claimant env names v q = if v.heap.isDir q then
      (newest env v.heap (parentClosure env v) (v.heap.obj q).parentDiNumber).filter
        (fun d => (v.heap.obj d).kind ≠ .file) else none := by
  have hmem : q ∈ parentClosure env v := (parentClosure_explored env v).grown.subset (by
    rw [hc.inodes]
    simp)
  have hun : Unlisted env names v q := unlisted_iff.mpr hc.lastEntry_copy
  rw [claimant_of_unlisted hun hmem, adopted]
  by_cases hdir : v.heap.isDir q
  · have hasked : (v.heap.obj q).parentDiNumber ∈ askedBefore v (parentClosure env v) q := by
      have hnodup : (parentClosure env v).Nodup :=
        (parentClosure_explored env v).grown.nodup_list hc.nodup
      obtain ⟨rest, -, hlist⟩ := hc.echo_parentClosure
      have hsplit : front ++ p :: q :: rest = front ++ [p] ++ q :: rest := by simp
      rw [hlist, hsplit] at hnodup
      obtain ⟨-, -, hfront⟩ := List.nodup_append.mp hnodup
      have hq : q ∉ front ++ [p] := fun hq => hfront q hq q (by simp) rfl
      rw [askedBefore, hlist, hsplit, before_append_cons hq, List.mem_append]
      refine Or.inr (List.mem_flatMap.mpr ⟨p, by simp, ?_⟩)
      rw [← hc.dotdot, Recoverer.dotdot, if_pos hdir]
      exact List.mem_singleton_self _
    rw [if_pos hdir, if_pos hdir]
    refine congrArg (fun f => Option.filter f _) (funext (fun d => ?_))
    simp [hasked]
  · rw [if_neg hdir, if_neg hdir]

theorem indexed (hc : Copied env names front p q v) (hv : v.Indexed env) :
    (withoutLast v).Indexed env where
  coherent := hv.coherent
  index hok d := (hv.index hok d).trans (newest_echo hc.echo hc.view d)
  inodes hnull := hv.inodes (List.mem_of_mem_dropLast hnull)
  invalidated := hv.invalidated

end Copied

/-! ### What the copy takes -/

/-- From `u₀`, where both functions end without the copy, `u` differs in the copy, which is called
by the number and lies where the `idotdot` says, and in whom it takes away. -/
structure TakenOver (env : Env) (names : Ptr → List InodeName) (v : InodeVector) (p q : Ptr)
    (u₀ u : InodeVector) : Prop where
  mem_iff : ∀ x, x ∈ u.inodes ↔ x ∈ u₀.inodes ∨ x = q
  copyName : (u.heap.obj q).name = Nat.toDigits 10 (v.heap.number p)
  copyParent : u.heap.parentOf q = if v.heap.isDir q then
    (u.lookup env (v.heap.obj q).parentDiNumber).filter (fun d => (v.heap.obj d).kind ≠ .file)
    else none
  name : ∀ x ∈ u₀.inodes, (u.heap.obj x).name = (u₀.heap.obj x).name
  parent : ∀ x ∈ u₀.inodes, u.heap.parentOf x =
    if (lastEntry env names (withoutLast v) x).any (fun c => c.1 = p) then some q
    else u₀.heap.parentOf x

/-- **The copy takes over what the first of the two lists**, and changes nothing else. -/
theorem Copied.takenOver (hc : Copied env names front p q v) (hv : v.Indexed env)
    (hnew : Unnamed v.heap) :
    ∃ u₀ u, associate env names (withoutLast v) = some u₀ ∧ associate env names v = some u ∧
      TakenOver env names v p q u₀ u := by
  have hnew₀ : Unnamed (withoutLast v).heap := ⟨hnew.unlinked, hnew.unnamed⟩
  obtain ⟨w₀, u₀, hw₀, hu₀, -, hin₀, hparent₀, hname₀⟩ :=
    named_recovered names (hc.indexed hv) hnew₀
  obtain ⟨w, u, hw, hu, hframe, hin, hparent, hname⟩ := named_recovered names hv hnew
  have hne : ∀ x ∈ u₀.inodes, x ≠ q := by
    rintro x hx rfl
    rw [hin₀] at hx
    exact hc.notMem.2 hx
  have hmem : ∀ x, x ∈ u.inodes ↔ x ∈ u₀.inodes ∨ x = q := by
    intro x
    obtain ⟨rest, hlist, hlist'⟩ := hc.echo_recovered
    rw [hin, hin₀, hlist, hlist']
    simp only [List.mem_append, List.mem_cons]
    tauto
  refine ⟨u₀, u, by rw [associate, hw₀, Option.bind_some, hu₀],
    by rw [associate, hw, Option.bind_some, hu], hmem, ?_, ?_, fun x hx => ?_, fun x hx => ?_⟩
  · rw [hname q ((hmem q).mpr (Or.inr rfl)), hc.label_copy]
  · rw [hparent, hc.claimant_copy]
    by_cases hdir : v.heap.isDir q
    · -- the number has been asked for in the first loop
      have hq : q ∈ parentClosure env v := (parentClosure_explored env v).grown.subset (by
        rw [hc.inodes]
        simp)
      have hasked : (v.heap.obj q).parentDiNumber ∈ Recoverer.dotdot v.heap q := by
        rw [Recoverer.dotdot, if_pos hdir]
        exact List.mem_singleton_self _
      have hanswered := (parentClosure_explored env v).answered_all q hq _ hasked
      rw [if_pos hdir, if_pos hdir, lookup_frame hframe, hin,
        newest_grown grown_parentClosure hanswered]
    · rw [if_neg hdir, if_neg hdir]
  · rw [hname x ((hmem x).mpr (Or.inl hx)), hname₀ x hx, hc.label_eq]
  · rw [hparent, hparent₀, hc.claimant_eq (hne x hx)]

end Recoverer

/-! ### In a run -/

variable {dev : Device} {files : Files}

/-- **A run that finds all stages done** has the inodes of an uninterrupted one, and the last of
them twice. -/
theorem exists_copied (hbig : chunkBytes dev ≤ dev.getSizeBytes)
    (hkept : Stage.postRemoveDupes.left dev.found ≠ []) (hstamps : StampsSettled dev.found)
    (hkills : Scanner.KilledRuns dev files)
    (hlatest : Scanner.latest files = some .postRemoveDupes) {env : Env} (henv : env.device = dev)
    (ok : Bool) :
    let v := (Scanner.scan env ⟨start ok, files⟩).2.inovec
    Scanner.scan env ⟨start ok, files⟩ = (.ok (), ⟨v, files⟩) ∧ Handed env v ∧
      ∃ front p q, v.inodes = front ++ [p, q] ∧ v.heap.view env q = v.heap.view env p ∧
        (Recoverer.withoutLast v).views env = Stage.postRemoveDupes.left dev.found := by
  intro v
  have hhanded : Handed env v := handed_scan hbig hkept hstamps hkills henv ok
  subst henv
  have hviews : Scanner.scan env ⟨start ok, files⟩ = (.ok (), ⟨v, files⟩) ∧
      ∃ init x, Stage.postRemoveDupes.left env.device.found = init ++ [x] ∧
        v.views env = init ++ [x, x] := by
    rcases holdsSome_of_killedRuns hbig hkept hstamps hkills with rfl | ⟨stage, hholds⟩
    · cases hlatest
    · obtain rfl := Option.some.inj (hholds.latest.symm.trans hlatest)
      obtain ⟨w, m, x, hload, -, hm, hx, hviews⟩ := hholds.load onDevice_found hkept ok
      obtain rfl := hm.exact (by decide)
      obtain ⟨init, hinit⟩ := List.getLast?_eq_some_iff.mp hx
      have hscan := Scanner.scan_of_load hlatest hload
      have hw : v = w := by
        show (Scanner.scan env ⟨start ok, files⟩).2.inovec = _
        rw [hscan]
        rfl
      refine ⟨by rw [hscan, hw]; rfl, init, x, hinit, ?_⟩
      rw [hw, hviews, hinit, List.append_assoc, List.singleton_append]
  obtain ⟨hok, init, x, hleft, hviews⟩ := hviews
  obtain ⟨front, last, hlist, hfront, hlast⟩ := List.map_eq_append_iff.mp hviews
  obtain ⟨p, rest, rfl, hp, hrest⟩ := List.map_eq_cons_iff.mp hlast
  obtain ⟨q, rest', rfl, hq, hnil⟩ := List.map_eq_cons_iff.mp hrest
  obtain rfl := List.map_eq_nil_iff.mp hnil
  refine ⟨hok, hhanded, front, p, q, hlist, hq.trans hp.symm, ?_⟩
  have hsplit : front ++ [p, q] = front ++ [p] ++ [q] := by simp
  show v.inodes.dropLast.map (v.heap.view env) = _
  rw [hlist, hsplit, List.dropLast_concat, hleft, List.map_append, hfront, List.map_singleton, hp]

/-- **A run that finds all stages done gives what the last inode lists to its copy**, and is
otherwise like one without the copy. -/
theorem copy_takes_over (hbig : chunkBytes dev ≤ dev.getSizeBytes)
    (hkept : Stage.postRemoveDupes.left dev.found ≠ []) (hstamps : StampsSettled dev.found)
    (hkills : Scanner.KilledRuns dev files)
    (hlatest : Scanner.latest files = some .postRemoveDupes) {env : Env} (henv : env.device = dev)
    (ok : Bool) (entries : View → List InodeName) :
    let v := (Scanner.scan env ⟨start ok, files⟩).2.inovec
    let names := fun r => entries (v.heap.view env r)
    ∃ p q u₀ u, (Recoverer.withoutLast v).views env
        = (Scanner.scan env ⟨start ok, fun _ => none⟩).2.inovec.views env ∧
      (Recoverer.withoutLast v).inodes.getLast? = some p ∧ v.inodes.getLast? = some q ∧
      v.heap.view env q = v.heap.view env p ∧
      Recoverer.associate env names (Recoverer.withoutLast v) = some u₀ ∧
      Recoverer.associate env names v = some u ∧ Recoverer.TakenOver env names v p q u₀ u := by
  intro v names
  obtain ⟨-, hhanded, front, p, q, hlist, hview, hleft⟩ :=
    exists_copied hbig hkept hstamps hkills hlatest henv ok
  subst henv
  have hc : Recoverer.Copied env names front p q v :=
    ⟨hlist, hhanded.nodup, hview, congrArg entries hview⟩
  obtain ⟨u₀, u, hu₀, hu, htaken⟩ := hc.takenOver hhanded.indexed hhanded.unnamed
  refine ⟨p, q, u₀, u, ?_, ?_, ?_, hview, hu₀, hu, htaken⟩
  · rw [views_uninterrupted hbig]
    exact hleft
  · show v.inodes.dropLast.getLast? = some p
    rw [hc.dropLast, List.getLast?_concat]
  · show v.inodes.getLast? = some q
    rw [hlist]
    simp

/-- A device of one chunk that begins with an inode extent, of which two inodes are allocated: file
1, and behind it directory 2, which lists the file as `a`. -/
def directoryLast : Env :=
  { Scanner.oneChunk.device with
    data := fun k =>
      if 16384 ≤ k then 0
      else if k % 512 = 40 ∨ k % 512 = 53 then
        ([(552, 1), (565, 0x80), (1064, 1), (1077, 0x40)].lookup k).getD 0
      else
        ([(1264, 2), (1265, 1), (1268, 2), (1272, 1), (1280, 1), (1284, 0xFF), (1285, 1),
          (1286, 0x61)].lookup k).getD (Scanner.oneChunk.device.data k) }.zeroed

theorem sane_directoryLast :
    directoryLast.device.sane 0 (directoryLast.device.getSizeBytes / 512)
      = directoryLast.device.sane 0 32 := by
  have hsize : directoryLast.device.getSizeBytes / 512 = 32 + (2 ^ 15 - 32) := by decide
  have hrest : directoryLast.device.sane (0 + 32 * 512) (2 ^ 15 - 32) = [] :=
    Device.sane_of_zero (fun k hk => if_pos (by omega)) _
  rw [hsize, Device.sane_add, hrest, List.append_nil]

def directoryLastScanned : Scanner :=
  (⟨start true, Function.update (fun _ => none) .inoscan (some [])⟩ : Scanner).found
    (directoryLast.device.sane 0 32)

def directoryLastFiles : Files :=
  (Scanner.boundary directoryLast directoryLastScanned .postRemoveDupes).files

def inlineNames (env : Env) (x : View) : List InodeName :=
  (DirInode.extractInodeNames env 0 x.diNumber x.byteOffset).getD []

theorem killedRuns_directoryLast : Scanner.KilledRuns directoryLast.device directoryLastFiles := by
  have hbig : chunkBytes directoryLast.device ≤ directoryLast.device.getSizeBytes := by decide
  have hscan : Scanner.doScan directoryLast ⟨start true, fun _ => none⟩
      = (.ok (), directoryLastScanned) := by
    rw [Scanner.doScan_from hbig (Scanner.restore_none directoryLast rfl) ⟨rfl, by decide⟩,
      Nat.sub_zero, sane_directoryLast]
    rfl
  have hnone : Scanner.latest (fun _ => none) = none := rfl
  refine .single ⟨directoryLast, true, rfl, _, ?_, rfl⟩
  rw [Scanner.passed]
  simp only [hnone, hscan]
  simp [Scanner.passedFrom, Scanner.boundary]

/-- The second run puts file 1 into the copy of directory 2. -/
theorem copy_takes_over_directoryLast :
    let v := (Scanner.scan directoryLast ⟨start true, directoryLastFiles⟩).2.inovec
    let names := fun r => inlineNames directoryLast (v.heap.view directoryLast r)
    ∃ q u₀ u, v.inodes = [1, 2, q] ∧
      Recoverer.associate directoryLast names (Recoverer.withoutLast v) = some u₀ ∧
      Recoverer.associate directoryLast names v = some u ∧
      u₀.heap.parentOf 1 = some 2 ∧ u.heap.parentOf 1 = some q := by
  intro v names
  have hfound : directoryLast.device.found.map View.diNumber = List.range 32 := by
    rw [Device.found, sane_directoryLast]
    decide +kernel
  have hkept : Stage.postRemoveDupes.left directoryLast.device.found ≠ [] := by
    rw [Device.found, sane_directoryLast]
    decide +kernel
  have hstamps : StampsSettled directoryLast.device.found := by
    refine stampsSettled_of_length_lt ?_
    rw [← List.length_map (f := View.diNumber), hfound]
    decide
  have hrun : Scanner.latest directoryLastFiles = some .postRemoveDupes ∧ v.inodes = [1, 2, 3] ∧
      Recoverer.lastEntry directoryLast names (Recoverer.withoutLast v) 1
        = some (2, ⟨['a'], 1⟩) ∧
      (Recoverer.associate directoryLast names (Recoverer.withoutLast v)).map
        (fun u => (u.inodes, u.heap.parentOf 1)) = some ([1, 2], some 2) := by
    decide +kernel
  obtain ⟨hlatest, hinodes, hlast, hfirst⟩ := hrun
  obtain ⟨p, q, u₀, u, -, hp, hq, -, hu₀, hu, htaken⟩ := copy_takes_over (by decide) hkept hstamps
    killedRuns_directoryLast hlatest (rfl : directoryLast.device = _) true
    (inlineNames directoryLast)
  obtain rfl : 2 = p := by simpa [Recoverer.withoutLast, v, hinodes] using hp
  obtain rfl : 3 = q := by simpa [v, hinodes] using hq
  rw [show Recoverer.associate directoryLast names (Recoverer.withoutLast v) = some u₀ from hu₀]
    at hfirst
  obtain ⟨hin, hparent⟩ := Prod.mk.inj (Option.some.inj hfirst)
  have hmem : 1 ∈ u₀.inodes := by
    rw [hin]
    decide
  refine ⟨3, u₀, u, hinodes, hu₀, hu, hparent, ?_⟩
  rw [htaken.parent 1 hmem, hlast]
  rfl

end Jfsrec
