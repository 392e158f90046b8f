import Jfsrec.Lib.Records
import Jfsrec.ExtentRuns
import Mathlib.Data.List.Dedup

/-!
# Which inostamp wins

`filter_inostamps` looks for the most common inostamp and the second most common
one in a single pass over a map, in the order of the stamps.  A count that is not
larger than the largest so far is never taken for the second one, so stamps above
the most common one do not count at all.  `RunnerUpSeen` says when that does no
harm.
-/

namespace Jfsrec

open Lib

variable {stamps : List ℕ} {s t : ℕ}

/-! ### The counts -/

theorem foldl_countInostamps (stamps : List ℕ) (m : Std.TreeMap ℕ ℕ) (s : ℕ) :
    (stamps.foldl (fun m s => m.insert s (m.getD s 0 + 1)) m)[s]?
      = if s ∈ stamps then some (m.getD s 0 + stamps.count s) else m[s]? := by
  induction stamps generalizing m with
  | nil => simp
  | cons t stamps ih =>
    rw [List.foldl_cons, ih, Std.TreeMap.getD_insert, Std.TreeMap.getElem?_insert]
    simp only [compare_eq_iff_eq, List.mem_cons, List.count_cons, beq_iff_eq]
    by_cases hts : t = s
    · subst hts
      by_cases hmem : t ∈ stamps
      · simp [hmem, Nat.add_assoc, Nat.add_comm]
      · simp [hmem, List.count_eq_zero.mpr hmem]
    · simp [hts, Ne.symm hts]

theorem mem_toList_countInostamps {x : ℕ × ℕ} :
    x ∈ (countInostamps stamps).toList ↔ x.1 ∈ stamps ∧ x.2 = stamps.count x.1 := by
  obtain ⟨s, c⟩ := x
  rw [Std.TreeMap.mem_toList_iff_getElem?_eq_some, countInostamps, foldl_countInostamps]
  by_cases hs : s ∈ stamps
  · simp [hs, eq_comm]
  · simp [hs]

/-- `s` is the most common stamp, the smallest of them. -/
structure FirstMostCommon (stamps : List ℕ) (s : ℕ) : Prop where
  mem : s ∈ stamps
  le : ∀ t ∈ stamps, stamps.count t ≤ stamps.count s
  first : ∀ t ∈ stamps, t < s → stamps.count t < stamps.count s

theorem FirstMostCommon.unique (hs : FirstMostCommon stamps s) (ht : FirstMostCommon stamps t) :
    s = t := by
  have h1 := hs.le t ht.mem
  have h2 := ht.le s hs.mem
  rcases Nat.lt_trichotomy s t with h | h | h
  · have h3 := ht.first s hs.mem h
    omega
  · exact h
  · have h3 := hs.first t ht.mem h
    omega

theorem countInostamps_ordered (stamps : List ℕ) :
    (countInostamps stamps).toList.Pairwise (fun x y => x.1 < y.1) :=
  Std.TreeMap.ordered_keys_toList.imp (fun h => compare_lt_iff_lt.mp h)

/-- The pass finds the most common stamp, and compares it with those before it. -/
theorem rankInostamps_spec (hne : stamps ≠ []) : ∃ s issmn, FirstMostCommon stamps s ∧
    rankInostamps (countInostamps stamps) = (stamps.count s, issmn, some s) ∧
      ∀ n, issmn < n ↔ 0 < n ∧ ∀ t ∈ stamps, t < s → stamps.count t < n := by
  have hlist : (countInostamps stamps).toList ≠ [] := by
    obtain ⟨t, ht⟩ := List.exists_mem_of_ne_nil _ hne
    exact List.ne_nil_of_mem
      (mem_toList_countInostamps (x := (t, stamps.count t)).mpr ⟨ht, rfl⟩)
  obtain ⟨before, ⟨s, c⟩, after, hsplit, hb, ha⟩ := exists_first_largest hlist
  have hord := countInostamps_ordered stamps
  rw [hsplit] at hord
  have hmem : ∀ x, x ∈ before ++ (s, c) :: after ↔ x.1 ∈ stamps ∧ x.2 = stamps.count x.1 := by
    intro x
    rw [← hsplit]
    exact mem_toList_countInostamps
  -- the stamps before `s` in the list are the smaller ones
  have hbefore : ∀ x, x ∈ before ↔ (x.1 ∈ stamps ∧ x.2 = stamps.count x.1) ∧ x.1 < s := by
    intro x
    rw [mem_before_iff hord, hmem]
  obtain ⟨hs, hc⟩ := (hmem (s, c)).mp (by simp)
  simp only at hs hc
  subst hc
  refine ⟨s, largest 0 before, ⟨hs, fun t ht => ?_, fun t ht hts => ?_⟩, ?_, fun n => ?_⟩
  · rcases List.mem_append.mp ((hmem (t, stamps.count t)).mpr ⟨ht, rfl⟩) with hx | hx
    · exact Nat.le_of_lt (hb _ hx)
    · rcases List.mem_cons.mp hx with hx | hx
      · exact Nat.le_of_eq (Prod.mk.inj hx).2
      · exact ha _ hx
  · exact hb _ ((hbefore (t, stamps.count t)).mpr ⟨⟨ht, rfl⟩, hts⟩)
  · have hpos : 0 < stamps.count s := List.count_pos_iff.mpr hs
    rw [rankInostamps, hsplit]
    exact foldl_record_append_cons hpos hb ha
  · rw [largest_lt_iff]
    refine and_congr_right (fun _ => ⟨fun h t ht hts => ?_, fun h x hx => ?_⟩)
    · exact h _ ((hbefore (t, stamps.count t)).mpr ⟨⟨ht, rfl⟩, hts⟩)
    · obtain ⟨⟨hx1, hx2⟩, hlt⟩ := (hbefore x).mp hx
      rw [hx2]
      exact h x.1 hx1 hlt

/-- **When the filter acts.**  The most common stamp is compared with the smaller
ones only. -/
theorem dominantInostamp_eq_some (stamps : List ℕ) (s : ℕ) :
    dominantInostamp (countInostamps stamps) = some s ↔ FirstMostCommon stamps s ∧
      0 < stamps.count s / 100 ∧ ∀ t ∈ stamps, t < s → stamps.count t < stamps.count s / 100 := by
  by_cases hne : stamps = []
  · subst hne
    refine ⟨fun h => ?_, fun h => absurd h.1.mem (by simp)⟩
    have hnone : dominantInostamp (countInostamps []) = none := rfl
    rw [hnone] at h
    cases h
  · obtain ⟨s', issmn, hfirst, hrank, hlt⟩ := rankInostamps_spec hne
    simp only [dominantInostamp, hrank, gt_iff_lt, hlt]
    refine ⟨fun h => ?_, ?_⟩
    · split at h
      · rename_i hcond
        obtain rfl := Option.some.inj h
        exact ⟨hfirst, hcond⟩
      · cases h
    · rintro ⟨hs, hcond⟩
      obtain rfl := hfirst.unique hs
      rw [if_pos hcond]

/-! ### Conservative filtering -/

def stampCounts (stamps : List ℕ) : List ℕ := stamps.dedup.map stamps.count

/-- A hundredth of how often `s` occurs is more than any other stamp does. -/
def Dominates (stamps : List ℕ) (s : ℕ) : Prop :=
  s ∈ stamps ∧ ∀ t ∈ stamps, t ≠ s → stamps.count t < stamps.count s / 100

/-- No stamp above the most common one reaches a hundredth of it, unless one below
it does as well. -/
def RunnerUpSeen (stamps : List ℕ) : Prop :=
  ∀ s, FirstMostCommon stamps s → 100 ≤ stamps.count s →
    (∃ t ∈ stamps, t < s ∧ stamps.count s / 100 ≤ stamps.count t) ∨
      ∀ t ∈ stamps, s < t → stamps.count t < stamps.count s / 100

theorem Dominates.firstMostCommon (hd : Dominates stamps s) : FirstMostCommon stamps s := by
  have hle : stamps.count s / 100 ≤ stamps.count s := Nat.div_le_self _ _
  refine ⟨hd.1, fun t ht => ?_, fun t ht hts => ?_⟩
  · by_cases hts : t = s
    · rw [hts]
    · have hlt := hd.2 t ht hts
      omega
  · have hlt := hd.2 t ht (by omega)
    omega

/-- A stamp dominates, and there are others for the filter to take out. -/
def Removes (stamps : List ℕ) : Prop := ∃ s, Dominates stamps s ∧ ∃ t ∈ stamps, t ≠ s

theorem removes_iff : Removes stamps ↔ ∃ c ∈ stampCounts stamps,
    (stampCounts stamps).erase c ≠ [] ∧ ∀ c' ∈ (stampCounts stamps).erase c, c' < c / 100 := by
  have herase : ∀ s ∈ stamps, ((stampCounts stamps).erase (stamps.count s)).Perm
      ((stamps.dedup.erase s).map stamps.count) := by
    intro s hs
    have hperm : (stampCounts stamps).Perm
        (stamps.count s :: (stamps.dedup.erase s).map stamps.count) :=
      (List.perm_cons_erase (List.mem_dedup.mpr hs)).map stamps.count
    have hperase := hperm.erase (stamps.count s)
    rwa [List.erase_cons_head] at hperase
  have hothers : ∀ s t, t ∈ stamps.dedup.erase s ↔ t ≠ s ∧ t ∈ stamps := by
    intro s t
    rw [(List.nodup_dedup stamps).mem_erase_iff, List.mem_dedup]
  refine ⟨?_, ?_⟩
  · rintro ⟨s, ⟨hs, hlt⟩, t, ht, hts⟩
    refine ⟨stamps.count s, List.mem_map.mpr ⟨s, List.mem_dedup.mpr hs, rfl⟩, ?_, ?_⟩
    · refine List.ne_nil_of_mem (a := stamps.count t) ((herase s hs).mem_iff.mpr ?_)
      exact List.mem_map.mpr ⟨t, (hothers s t).mpr ⟨hts, ht⟩, rfl⟩
    · intro c' hc'
      obtain ⟨u, hu, rfl⟩ := List.mem_map.mp ((herase s hs).mem_iff.mp hc')
      obtain ⟨hus, hu⟩ := (hothers s u).mp hu
      exact hlt u hu hus
  · rintro ⟨c, hc, hne, hlt⟩
    obtain ⟨s, hs, rfl⟩ := List.mem_map.mp hc
    rw [List.mem_dedup] at hs
    obtain ⟨c', hc'⟩ := List.exists_mem_of_ne_nil _ hne
    obtain ⟨t, ht, rfl⟩ := List.mem_map.mp ((herase s hs).mem_iff.mp hc')
    obtain ⟨hts, ht⟩ := (hothers s t).mp ht
    refine ⟨s, ⟨hs, fun u hu hus => hlt _ ((herase s hs).mem_iff.mpr ?_)⟩, t, ht, hts⟩
    exact List.mem_map.mpr ⟨u, (hothers s u).mpr ⟨hus, hu⟩, rfl⟩

theorem removes_congr {stamps' : List ℕ} (h : (stampCounts stamps).Perm (stampCounts stamps')) :
    Removes stamps ↔ Removes stamps' := by
  simp only [removes_iff, h.mem_iff, (h.erase _).mem_iff, ne_eq, ← List.length_eq_zero_iff,
    (h.erase _).length_eq]

/-! ### The filter -/

theorem Removes.runnerUpSeen (hr : Removes stamps) : RunnerUpSeen stamps := by
  obtain ⟨s, hd, _⟩ := hr
  intro s' hs' _
  obtain rfl := hs'.unique hd.firstMostCommon
  exact Or.inr (fun t ht hst => hd.2 t ht (by omega))

theorem Removes.dominantInostamp (hr : Removes stamps) :
    ∃ s, Dominates stamps s ∧ dominantInostamp (countInostamps stamps) = some s := by
  obtain ⟨s, hd, t, ht, hts⟩ := hr
  have hlt := hd.2 t ht hts
  exact ⟨s, hd, (dominantInostamp_eq_some stamps s).mpr ⟨hd.firstMostCommon, by omega,
    fun u hu hus => hd.2 u hu (by omega)⟩⟩

/-- Where the filter acts and the runner-up is seen, it acts on a stamp that
dominates. -/
theorem RunnerUpSeen.dominates (hseen : RunnerUpSeen stamps)
    (hs : dominantInostamp (countInostamps stamps) = some s) : Dominates stamps s := by
  obtain ⟨hfirst, hpos, hlt⟩ := (dominantInostamp_eq_some stamps s).mp hs
  refine ⟨hfirst.mem, fun t ht hts => ?_⟩
  rcases hseen s hfirst (by omega) with ⟨u, hu, hus, hle⟩ | hafter
  · have hu' := hlt u hu hus
    omega
  · rcases Nat.lt_or_gt_of_ne hts with h | h
    · exact hlt t ht h
    · exact hafter t ht h

/-- Where the runner-up is not seen, the filter acts although no stamp dominates. -/
theorem dominantInostamp_of_not_seen (hseen : ¬ RunnerUpSeen stamps) :
    ∃ s, dominantInostamp (countInostamps stamps) = some s ∧ (∃ t ∈ stamps, t ≠ s) ∧
      ∀ s', ¬ Dominates stamps s' := by
  simp only [RunnerUpSeen, not_forall, not_or, not_exists, not_and, Nat.not_lt,
    exists_prop] at hseen
  obtain ⟨s, hfirst, h100, hbelow, t, ht, hst, hle⟩ := hseen
  refine ⟨s, (dominantInostamp_eq_some stamps s).mpr ⟨hfirst, by omega, fun u hu hus => ?_⟩,
    ⟨t, ht, by omega⟩, fun s' hd => ?_⟩
  · have hu' := hbelow u hu hus
    omega
  · obtain rfl := hfirst.unique hd.firstMostCommon
    have hlt := hd.2 t ht (by omega)
    omega

/-- Of two stamps that are equally common only the smaller one is seen. -/
theorem not_runnerUpSeen_twice {n : ℕ} (hn : 100 ≤ n) (hst : s < t) :
    ¬ RunnerUpSeen (List.replicate n s ++ List.replicate n t) := by
  have hcount : ∀ u, u = s ∨ u = t →
      (List.replicate n s ++ List.replicate n t).count u = n := by
    rintro u (rfl | rfl)
    · simp [List.count_replicate, Nat.ne_of_gt hst]
    · simp [List.count_replicate, Nat.ne_of_lt hst]
  have hmem : ∀ u, u ∈ List.replicate n s ++ List.replicate n t ↔ u = s ∨ u = t := by
    intro u
    rw [List.mem_append, List.mem_replicate, List.mem_replicate]
    simp [show n ≠ 0 by omega]
  have hfirst : FirstMostCommon (List.replicate n s ++ List.replicate n t) s := by
    refine ⟨(hmem s).mpr (Or.inl rfl), fun u hu => ?_, fun u hu hlt => ?_⟩
    · rw [hcount u ((hmem u).mp hu), hcount s (Or.inl rfl)]
    · rcases (hmem u).mp hu with rfl | rfl <;> omega
  intro hseen
  rcases hseen s hfirst (by rwa [hcount s (Or.inl rfl)]) with ⟨u, hu, hlt, _⟩ | hafter
  · rcases (hmem u).mp hu with rfl | rfl <;> omega
  · have h7 := hafter t ((hmem t).mpr (Or.inr rfl)) hst
    rw [hcount t (Or.inr rfl), hcount s (Or.inl rfl)] at h7
    omega

namespace InodeVector

variable {env env' : Env} {v w : InodeVector}

def inostamps (env : Env) (v : InodeVector) : List ℕ :=
  v.inodes.map (fun p => (v.heap.dinodeOf env p).diInostamp)

/-- `filter_inostamps` takes inodes out only for a stamp that dominates, and then
those that bear another one. -/
structure FiltersConservatively (env : Env) (v : InodeVector) : Prop where
  removed : ∀ s, Dominates (v.inostamps env) s → (v.filterInostamps env).inodes
    = v.inodes.filter (fun p => (v.heap.dinodeOf env p).diInostamp == s)
  unchanged : (∀ s, ¬ Dominates (v.inostamps env) s) → (v.filterInostamps env).inodes = v.inodes

theorem filterInostamps_inodes (hv : v.Ready env) : (v.filterInostamps env).inodes
    = match dominantInostamp (countInostamps (v.inostamps env)) with
      | none => v.inodes
      | some s => v.inodes.filter (fun p => (v.heap.dinodeOf env p).diInostamp == s) := by
  have hstamps : (v.views env).map (fun x => x.dinode.diInostamp) = v.inostamps env := by
    rw [views, List.map_map]
    rfl
  rw [(filterInostamps_selects hv).inodes]
  cases hd : dominantInostamp (countInostamps (v.inostamps env)) with
  | none =>
    have hkeep : keepInostamp (v.views env) = fun _ => true := by
      funext i
      rw [keepInostamp, hstamps, hd]
    rw [hkeep, keepAt_true]
  | some s =>
    refine (filter_eq_keepAt (fun i hi => ?_)).symm
    rw [keepInostamp, hstamps, hd, views_getElem? hi]
    rfl

theorem filterInostamps_eq_self (hv : v.Ready env) : (v.filterInostamps env).inodes = v.inodes ↔
    ∀ s, dominantInostamp (countInostamps (v.inostamps env)) = some s →
      ∀ t ∈ v.inostamps env, t = s := by
  rw [filterInostamps_inodes hv]
  cases hd : dominantInostamp (countInostamps (v.inostamps env)) with
  | none => simp
  | some s =>
    simp only [List.filter_eq_self, beq_iff_eq, inostamps, List.forall_mem_map, Option.some.injEq,
      forall_eq']

/-- The filter leaves everything if and only if it may, and the runner-up is seen. -/
theorem unchanged_iff (hv : v.Ready env) : (v.filterInostamps env).inodes = v.inodes ↔
    RunnerUpSeen (v.inostamps env) ∧ ¬ Removes (v.inostamps env) := by
  rw [filterInostamps_eq_self hv]
  refine ⟨fun h => ⟨?_, fun hr => ?_⟩, ?_⟩
  · by_contra hseen
    obtain ⟨s, hs, ⟨t, ht, hts⟩, _⟩ := dominantInostamp_of_not_seen hseen
    exact hts (h s hs t ht)
  · obtain ⟨s, hd, hs⟩ := hr.dominantInostamp
    obtain ⟨s', hd', t, ht, hts⟩ := hr
    obtain rfl := hd.firstMostCommon.unique hd'.firstMostCommon
    exact hts (h s hs t ht)
  · rintro ⟨hseen, hr⟩ s hs t ht
    by_contra hts
    exact hr ⟨s, hseen.dominates hs, t, ht, hts⟩

theorem filtersConservatively_iff (hv : v.Ready env) :
    v.FiltersConservatively env ↔ RunnerUpSeen (v.inostamps env) := by
  refine ⟨fun h => ?_, fun hseen => ⟨fun s hd => ?_, fun hnone => ?_⟩⟩
  · by_contra hseen
    obtain ⟨s, _, _, hnone⟩ := dominantInostamp_of_not_seen hseen
    exact hseen ((unchanged_iff hv).mp (h.unchanged hnone)).1
  · by_cases hr : Removes (v.inostamps env)
    · obtain ⟨s', hd', hs'⟩ := hr.dominantInostamp
      obtain rfl := hd.firstMostCommon.unique hd'.firstMostCommon
      rw [filterInostamps_inodes hv, hs']
    · rw [(unchanged_iff hv).mpr ⟨hseen, hr⟩]
      refine (List.filter_eq_self.mpr (fun p hp => ?_)).symm
      by_contra hne
      exact hr ⟨s, hd, _, List.mem_map.mpr ⟨p, hp, rfl⟩, by simpa using hne⟩
  · refine (unchanged_iff hv).mpr ⟨hseen, ?_⟩
    rintro ⟨s, hd, _⟩
    exact hnone s hd

/-- **The filter is conservative**, if and only if the runner-up is seen; and of two
lists with the same counts it leaves both alone or neither, if and only if it is
seen in both or in neither. -/
theorem filterInostamps_conservative_iff (hv : v.Ready env) :
    (v.FiltersConservatively env ↔ RunnerUpSeen (v.inostamps env)) ∧
      ∀ env' (w : InodeVector), w.Ready env' →
        (stampCounts (w.inostamps env')).Perm (stampCounts (v.inostamps env)) →
        ((((w.filterInostamps env').inodes = w.inodes ↔ (v.filterInostamps env).inodes = v.inodes))
          ↔ (RunnerUpSeen (w.inostamps env') ↔ RunnerUpSeen (v.inostamps env))) := by
  refine ⟨filtersConservatively_iff hv, fun env' w hw hperm => ?_⟩
  have hremoves := removes_congr hperm
  rw [unchanged_iff hv, unchanged_iff hw, hremoves]
  by_cases hr : Removes (v.inostamps env)
  · have hseen : RunnerUpSeen (v.inostamps env) := hr.runnerUpSeen
    have hseen' : RunnerUpSeen (w.inostamps env') := (hremoves.mpr hr).runnerUpSeen
    simp only [hr, hseen, hseen']
  · simp only [hr, not_false_eq_true, and_true]

/-- 201 inodes, of which the one in slot `i` bears another stamp. -/
def rareStamp (i : ℕ) : Device where
  blocksize := .b512
  isBlk := true
  stSize := 102912
  data := fun k => if k % 512 = 0 then if k / 512 = i then 3 else 5 else if k % 512 = 4 then 16
    else if k % 512 = 16 then 4 else if k % 512 = 40 then 1 else if k % 512 = 53 then 0x80 else 0
  stSize_lt := by decide

def oneRare (i : ℕ) : InodeVector :=
  (((rareStamp i).sane 0 201).map some).foldl (addBuilt addInode) (start false)

/-- The filter takes out the inode with the rare stamp, whether it is the first or the last. -/
theorem filterInostamps_conservative_oneRare :
    ((oneRare 0).filterInostamps (rareStamp 0).zeroed).inodes = (List.range 200).map (· + 2) ∧
      ((oneRare 200).filterInostamps (rareStamp 200).zeroed).inodes ≠ (oneRare 200).inodes := by
  have hfirst : (oneRare 0).Ready (rareStamp 0).zeroed :=
    (scanned_sane false (by decide) : (oneRare 0).Scanned (rareStamp 0).zeroed).toReady
  have hlast : (oneRare 200).Ready (rareStamp 200).zeroed :=
    (scanned_sane false (by decide) : (oneRare 200).Scanned (rareStamp 200).zeroed).toReady
  have hstamps : (oneRare 0).inostamps (rareStamp 0).zeroed = 3 :: List.replicate 200 5 := by
    decide +kernel
  have hstamps' : (oneRare 200).inostamps (rareStamp 200).zeroed = List.replicate 200 5 ++ [3] := by
    decide +kernel
  have hdominates : Dominates ((oneRare 0).inostamps (rareStamp 0).zeroed) 5 := by
    rw [hstamps, Dominates]
    decide +kernel
  have hremoves : Removes ((oneRare 0).inostamps (rareStamp 0).zeroed) :=
    ⟨5, hdominates, 3, by rw [hstamps]; decide, by decide⟩
  have hperm : (stampCounts ((oneRare 200).inostamps (rareStamp 200).zeroed)).Perm
      (stampCounts ((oneRare 0).inostamps (rareStamp 0).zeroed)) := by
    rw [hstamps, hstamps']
    decide +kernel
  obtain ⟨hconservative, hsame⟩ := filterInostamps_conservative_iff hfirst
  have hkept := (hconservative.mpr hremoves.runnerUpSeen).removed 5 hdominates
  have hrest : ((oneRare 0).filterInostamps (rareStamp 0).zeroed).inodes
      = (List.range 200).map (· + 2) := by
    rw [hkept]
    decide +kernel
  have hboth := (hsame _ _ hlast hperm).mpr
    (iff_of_true ((removes_congr hperm).mpr hremoves).runnerUpSeen hremoves.runnerUpSeen)
  have hchanged : ((oneRare 0).filterInostamps (rareStamp 0).zeroed).inodes
      ≠ (oneRare 0).inodes := by
    rw [hrest]
    decide +kernel
  exact ⟨hrest, fun hall => hchanged (hboth.mp hall)⟩

/-- 100 inodes of one generation, and 100 of another. -/
def generations : Device where
  blocksize := .b512
  isBlk := true
  stSize := 102400
  data := fun k => if k % 512 = 0 then if k < 51200 then 5 else 7 else if k % 512 = 4 then 16
    else if k % 512 = 16 then 4 else if k % 512 = 40 then 1 else if k % 512 = 53 then 0x80 else 0
  stSize_lt := by decide

def twoGenerations : InodeVector :=
  ((generations.sane 0 200).map some).foldl (addBuilt addInode) (start false)

/-- The filter takes out one of two generations that are equally common. -/
theorem not_filtersConservatively_twoGenerations : twoGenerations.Ready generations.zeroed ∧
    ¬ twoGenerations.FiltersConservatively generations.zeroed := by
  have hready : twoGenerations.Ready generations.zeroed :=
    (scanned_sane false (by decide) : twoGenerations.Scanned generations.zeroed).toReady
  have hstamps : twoGenerations.inostamps generations.zeroed
      = List.replicate 100 5 ++ List.replicate 100 7 := by decide +kernel
  refine ⟨hready, fun h => ?_⟩
  have hseen := (filtersConservatively_iff hready).mp h
  rw [hstamps] at hseen
  exact not_runnerUpSeen_twice (by decide) (by decide) hseen

end InodeVector

end Jfsrec
