import Jfsrec.Xtree

/-!
# Where the reading of an extent tree looks

The loops of `get_leaf_xads` and `get_internal_xads` run from 2 up to
`header.nextindex`, a number of the disk, on an array `xad` of 18 entries in the
inode and of 256 in a page.  `reads` is what they read, entry by entry.

`readsInside_iff` says when all of it lies in the arrays.
-/

namespace Jfsrec

open Lib

def Xtpage.xad (b : Buffer) (pos i : ℕ) : Xad := xadAt b (pos + 16 * i)

/-- `for (i = 2; i < nextindex; i++)` -/
def Xtpage.indices (b : Buffer) (pos : ℕ) : List ℕ := List.range' 2 (nextindex b pos - 2).toNat

namespace FileInode

def XtNode.slots : XtNode → ℕ
  | .root => 18
  | .page _ => 256

def nodeMemory (env : Env) (d : Dinode) : XtNode → Option (Buffer × ℕ)
  | .root => some (dinodeMemory env d, rootPos)
  | .page address =>
      match env.readBytes (address * env.device.blocksize.bytes) xtpageBytes env.fresh with
      | .ret xtree => some (xtree, 0)
      | _ => none

abbrev XadRead := XtNode × ℕ

/-- What the loop of `get_internal_xads` reads: an entry, what is read below it, and the
other entries if the call returns. -/
def eachRead (below : Xad → List XadRead) (returns : Xad → Bool) (n : XtNode) (b : Buffer)
    (pos : ℕ) : List ℕ → List XadRead
  | [] => []
  | i :: is =>
      let x := Xtpage.xad b pos i
      (n, i) :: (below x ++ if returns x then eachRead below returns n b pos is else [])

def returns (env : Env) (fuel : ℕ) (x : Xad) : Bool :=
  (getInternalXtpage env fuel x []).map Outcome.isRet == some true

/-- What is read of a node and below it, by `save_file` or by `get_internal_xtpage`. -/
def reads (env : Env) (d : Dinode) : ℕ → XtNode → List XadRead
  | 0, _ => []
  | fuel + 1, n =>
      match nodeMemory env d n with
      | none => []
      | some (b, pos) =>
          if Xtpage.nextindex b pos ≤ 2 then []
          else if isLeaf (Xtpage.flag b pos) then (Xtpage.indices b pos).map (fun i => (n, i))
          else eachRead (fun x => reads env d fuel (.page x.address)) (returns env fuel) n b pos
            (Xtpage.indices b pos)

variable {env : Env} {d : Dinode} {fuel i : ℕ} {n m : XtNode} {b : Buffer} {pos : ℕ}

/-! ### The entries of a node -/

theorem mem_indices : i ∈ Xtpage.indices b pos ↔ 2 ≤ i ∧ (i : ℤ) < Xtpage.nextindex b pos := by
  rw [Xtpage.indices, List.mem_range'_1]
  omega

theorem mem_of_indices_eq {pre post : List ℕ} (h : Xtpage.indices b pos = pre ++ i :: post)
    (j : ℕ) : j ∈ pre ↔ 2 ≤ j ∧ j < i := by
  obtain ⟨k, _, rfl, hpost⟩ := List.range'_eq_append_iff.mp h
  have hi : i = 2 + k := by
    cases hn : (Xtpage.nextindex b pos - 2).toNat - k with
    | zero =>
      rw [hn] at hpost
      cases hpost
    | succ l =>
      rw [hn, List.range'_succ] at hpost
      rw [(List.cons.inj hpost).1, Nat.mul_one]
  rw [List.mem_range'_1, hi]

theorem xads_eq (b : Buffer) (pos : ℕ) :
    Xtpage.xads b pos = (Xtpage.indices b pos).map (Xtpage.xad b pos) := by
  rw [Xtpage.xads, Xtpage.indices, List.range'_eq_map_range, List.map_map]
  refine List.map_congr_left (fun k _ => ?_)
  show xadAt b (pos + 16 * (k + 2)) = xadAt b (pos + 16 * (2 + k))
  rw [Nat.add_comm k 2]

theorem xtKids_eq (env : Env) (d : Dinode) (n : XtNode) :
    xtKids env d n = (nodeMemory env d n).map (fun p => pagesBelow p.1 p.2) := by
  cases n with
  | root => rfl
  | page address =>
    rw [xtKids, nodeMemory]
    cases env.readBytes (address * env.device.blocksize.bytes) xtpageBytes env.fresh with
    | ret xtree => rfl
    | raise e => rfl
    | terminate => rfl

def childAt (b : Buffer) (pos i : ℕ) : XtNode := .page (Xtpage.xad b pos i).address

theorem pagesBelow_eq (h : ¬ isLeaf (Xtpage.flag b pos)) :
    pagesBelow b pos = (Xtpage.indices b pos).map (childAt b pos) := by
  rw [pagesBelow, if_neg h, xads_eq, List.map_map]
  rfl

/-! ### Which reads there are -/

/-- A call returns, with enough fuel, exactly if the tree below is sound. -/
theorem sound_iff : Sound (xtKids env d) n ↔ ∃ fuel, visit (xtKids env d) fuel n = some true :=
  (visit_true_iff (finite_reached env d n)).symm

theorem returns_iff {x : Xad} :
    returns env fuel x = true ↔ visit (xtKids env d) fuel (.page x.address) = some true := by
  rw [returns, beq_iff_eq, getInternalXtpage_visit]

/-- The loops come to `xad[i]` of a node with this memory. -/
def ComesTo (env : Env) (d : Dinode) (b : Buffer) (pos i : ℕ) : Prop :=
  i ∈ Xtpage.indices b pos ∧ (isLeaf (Xtpage.flag b pos) ∨
    ∀ j, 2 ≤ j → j < i → Sound (xtKids env d) (childAt b pos j))

theorem reached_iff (hmem : nodeMemory env d n = some (b, pos)) :
    Reached (xtKids env d) n m ↔
      ¬ isLeaf (Xtpage.flag b pos) ∧ ∃ i, ComesTo env d b pos i ∧ m = childAt b pos i := by
  have hkids : xtKids env d n = some (pagesBelow b pos) := by
    rw [xtKids_eq, hmem]
    rfl
  refine ⟨?_, ?_⟩
  · rintro ⟨pre, post, hk, hpre⟩
    rw [hkids] at hk
    have hk' := Option.some.inj hk
    by_cases hleaf : isLeaf (Xtpage.flag b pos)
    · rw [pagesBelow, if_pos hleaf] at hk'
      simp at hk'
    · rw [pagesBelow_eq hleaf] at hk'
      obtain ⟨is, js, hsplit, rfl, hjs⟩ := List.map_eq_append_iff.mp hk'
      obtain ⟨i, js, rfl, rfl, _⟩ := List.map_eq_cons_iff.mp hjs
      refine ⟨hleaf, i, ⟨by simp [hsplit], Or.inr (fun j h2 hj => ?_)⟩, rfl⟩
      exact hpre _ (List.mem_map_of_mem ((mem_of_indices_eq hsplit j).mpr ⟨h2, hj⟩))
  · rintro ⟨hleaf, i, ⟨hi, hsound⟩, rfl⟩
    obtain ⟨is, js, hsplit⟩ := List.append_of_mem hi
    refine ⟨is.map (childAt b pos), js.map (childAt b pos), ?_, fun c hc => ?_⟩
    · rw [hkids, pagesBelow_eq hleaf, hsplit, List.map_append, List.map_cons]
    · obtain ⟨j, hj, rfl⟩ := List.mem_map.mp hc
      obtain ⟨h2, hlt⟩ := (mem_of_indices_eq hsplit j).mp hj
      exact (hsound.resolve_left hleaf) j h2 hlt

theorem exists_nodeMemory_of_reached (h : Reached (xtKids env d) n m) :
    ∃ b pos, nodeMemory env d n = some (b, pos) := by
  obtain ⟨pre, post, hk, _⟩ := h
  rw [xtKids_eq] at hk
  obtain ⟨⟨b, pos⟩, hmem, _⟩ := Option.map_eq_some_iff.mp hk
  exact ⟨b, pos, hmem⟩

theorem mem_eachRead {below : Xad → List XadRead} {returns : Xad → Bool} {is : List ℕ}
    {r : XadRead} :
    r ∈ eachRead below returns n b pos is ↔ ∃ pre i post, is = pre ++ i :: post ∧
      (∀ j ∈ pre, returns (Xtpage.xad b pos j) = true) ∧
        (r = (n, i) ∨ r ∈ below (Xtpage.xad b pos i)) := by
  induction is with
  | nil => simp [eachRead]
  | cons i is ih =>
    rw [eachRead, List.mem_cons, List.mem_append]
    refine ⟨?_, ?_⟩
    · rintro (h | h | h)
      · exact ⟨[], i, is, rfl, by simp, Or.inl h⟩
      · exact ⟨[], i, is, rfl, by simp, Or.inr h⟩
      · split at h
        · rename_i hret
          obtain ⟨pre, k, post, rfl, hpre, hr⟩ := ih.mp h
          refine ⟨i :: pre, k, post, rfl, ?_, hr⟩
          rw [List.forall_mem_cons]
          exact ⟨hret, hpre⟩
        · cases h
    · rintro ⟨pre, k, post, hsplit, hpre, hr⟩
      cases pre with
      | nil =>
        obtain ⟨rfl, rfl⟩ := List.cons.inj hsplit
        rcases hr with h | h
        · exact Or.inl h
        · exact Or.inr (Or.inl h)
      | cons j pre =>
        obtain ⟨rfl, hrest⟩ := List.cons.inj hsplit
        rw [List.forall_mem_cons] at hpre
        rw [if_pos hpre.1]
        exact Or.inr (Or.inr (ih.mpr ⟨pre, k, post, hrest, hpre.2, hr⟩))

theorem mem_reads (hmem : nodeMemory env d n = some (b, pos)) {r : XadRead} :
    r ∈ reads env d (fuel + 1) n ↔ ∃ i ∈ Xtpage.indices b pos,
      (isLeaf (Xtpage.flag b pos) ∧ r = (n, i)) ∨
      (¬ isLeaf (Xtpage.flag b pos) ∧
        (∀ j, 2 ≤ j → j < i → returns env fuel (Xtpage.xad b pos j) = true) ∧
        (r = (n, i) ∨ r ∈ reads env d fuel (childAt b pos i))) := by
  rw [reads, hmem]
  dsimp only
  by_cases hidx : Xtpage.nextindex b pos ≤ 2
  · rw [if_pos hidx]
    refine ⟨fun h => absurd h List.not_mem_nil, ?_⟩
    rintro ⟨i, hi, _⟩
    have h := mem_indices.mp hi
    omega
  · rw [if_neg hidx]
    by_cases hleaf : isLeaf (Xtpage.flag b pos)
    · rw [if_pos hleaf, List.mem_map]
      refine ⟨?_, ?_⟩
      · rintro ⟨i, hi, rfl⟩
        exact ⟨i, hi, Or.inl ⟨hleaf, rfl⟩⟩
      · rintro ⟨i, hi, ⟨_, rfl⟩ | ⟨hn, _⟩⟩
        · exact ⟨i, hi, rfl⟩
        · exact absurd hleaf hn
    · rw [if_neg hleaf, mem_eachRead]
      refine ⟨?_, ?_⟩
      · rintro ⟨pre, i, post, hsplit, hpre, hr⟩
        refine ⟨i, by simp [hsplit], Or.inr ⟨hleaf, fun j h2 hj => ?_, hr⟩⟩
        exact hpre j ((mem_of_indices_eq hsplit j).mpr ⟨h2, hj⟩)
      · rintro ⟨i, hi, ⟨h, _⟩ | ⟨_, hret, hr⟩⟩
        · exact absurd h hleaf
        · obtain ⟨pre, post, hsplit⟩ := List.append_of_mem hi
          refine ⟨pre, i, post, hsplit, fun j hj => ?_, hr⟩
          obtain ⟨h2, hlt⟩ := (mem_of_indices_eq hsplit j).mp hj
          exact hret j h2 hlt

theorem exists_nodeMemory_of_mem_reads {r : XadRead} (h : r ∈ reads env d (fuel + 1) n) :
    ∃ b pos, nodeMemory env d n = some (b, pos) := by
  rw [reads] at h
  cases hmem : nodeMemory env d n with
  | none =>
    rw [hmem] at h
    cases h
  | some p => exact ⟨p.1, p.2, rfl⟩

/-- `xad[i]` of the node is read, if the node is come to. -/
def ReadsAt (env : Env) (d : Dinode) (n : XtNode) (i : ℕ) : Prop :=
  ∃ b pos, nodeMemory env d n = some (b, pos) ∧ ComesTo env d b pos i

theorem comesTo_of_returns (hi : i ∈ Xtpage.indices b pos)
    (hret : ∀ j, 2 ≤ j → j < i → returns env fuel (Xtpage.xad b pos j) = true) :
    ComesTo env d b pos i :=
  ⟨hi, Or.inr (fun j h2 hj => sound_iff.mpr ⟨fuel, returns_iff.mp (hret j h2 hj)⟩)⟩

theorem reached_of_mem_reads {r : XadRead} (h : r ∈ reads env d fuel n) :
    Relation.ReflTransGen (Reached (xtKids env d)) n r.1 ∧ ReadsAt env d r.1 r.2 := by
  induction fuel generalizing n with
  | zero => cases h
  | succ fuel ih =>
    obtain ⟨b, pos, hmem⟩ := exists_nodeMemory_of_mem_reads h
    obtain ⟨i, hi, ⟨hleaf, rfl⟩ | ⟨hleaf, hret, hr⟩⟩ := (mem_reads hmem).mp h
    · exact ⟨.refl, b, pos, hmem, hi, Or.inl hleaf⟩
    · have hcomes : ComesTo env d b pos i := comesTo_of_returns hi hret
      rcases hr with rfl | hr
      · exact ⟨.refl, b, pos, hmem, hcomes⟩
      · obtain ⟨hreach, hat⟩ := ih hr
        exact ⟨.head ((reached_iff hmem).mpr ⟨hleaf, i, hcomes, rfl⟩) hreach, hat⟩

theorem exists_fuel_returns (hleaf : ¬ isLeaf (Xtpage.flag b pos)) (h : ComesTo env d b pos i) :
    ∃ fuel, ∀ f, fuel ≤ f → ∀ j, 2 ≤ j → j < i →
      returns env f (Xtpage.xad b pos j) = true := by
  have hreturn : ∀ c ∈ (List.range' 2 (i - 2)).map (childAt b pos),
      ∃ fuel, visit (xtKids env d) fuel c = some true := by
    intro c hc
    obtain ⟨j, hj, rfl⟩ := List.mem_map.mp hc
    rw [List.mem_range'_1] at hj
    exact sound_iff.mp (h.2.resolve_left hleaf j hj.1 (by omega))
  obtain ⟨fuel, hfuel⟩ := exists_fuel_visit hreturn
  refine ⟨fuel, fun f hf j h2 hj => returns_iff.mpr (hfuel f hf _ ?_)⟩
  exact List.mem_map_of_mem (List.mem_range'_1.mpr ⟨h2, by omega⟩)

theorem mem_reads_of_reached (hreach : Relation.ReflTransGen (Reached (xtKids env d)) n m)
    (hat : ReadsAt env d m i) : ∃ fuel, ∀ f, fuel ≤ f → (m, i) ∈ reads env d f n := by
  induction hreach using Relation.ReflTransGen.head_induction_on with
  | refl =>
    obtain ⟨b, pos, hmem, hcomes⟩ := hat
    by_cases hleaf : isLeaf (Xtpage.flag b pos)
    · refine ⟨1, fun f hf => ?_⟩
      obtain ⟨f, rfl⟩ : ∃ k, f = k + 1 := ⟨f - 1, by omega⟩
      exact (mem_reads hmem).mpr ⟨i, hcomes.1, Or.inl ⟨hleaf, rfl⟩⟩
    · obtain ⟨fuel, hfuel⟩ := exists_fuel_returns hleaf hcomes
      refine ⟨fuel + 1, fun f hf => ?_⟩
      obtain ⟨f, rfl⟩ : ∃ k, f = k + 1 := ⟨f - 1, by omega⟩
      exact (mem_reads hmem).mpr ⟨i, hcomes.1,
        Or.inr ⟨hleaf, hfuel f (by omega), Or.inl rfl⟩⟩
  | head hstep _ ih =>
    obtain ⟨fuel, hfuel⟩ := ih
    obtain ⟨b, pos, hmem⟩ := exists_nodeMemory_of_reached hstep
    obtain ⟨hleaf, k, hcomes, rfl⟩ := (reached_iff hmem).mp hstep
    obtain ⟨fuel', hfuel'⟩ := exists_fuel_returns hleaf hcomes
    refine ⟨max fuel fuel' + 1, fun f hf => ?_⟩
    obtain ⟨f, rfl⟩ : ∃ k, f = k + 1 := ⟨f - 1, by omega⟩
    exact (mem_reads hmem).mpr ⟨k, hcomes.1,
      Or.inr ⟨hleaf, hfuel' f (by omega), Or.inr (hfuel f (by omega))⟩⟩

/-! ### What is read and what is collected -/

def leafXad (env : Env) (d : Dinode) (r : XadRead) : Option Xad :=
  match nodeMemory env d r.1 with
  | none => none
  | some (b, pos) => if isLeaf (Xtpage.flag b pos) then some (Xtpage.xad b pos r.2) else none

theorem filterMap_leafXad_of_leaf (hmem : nodeMemory env d n = some (b, pos))
    (hleaf : isLeaf (Xtpage.flag b pos)) :
    ((Xtpage.indices b pos).map (fun i => (n, i))).filterMap (leafXad env d)
      = Xtpage.xads b pos := by
  have hread : ∀ i, leafXad env d (n, i) = some (Xtpage.xad b pos i) := by
    intro i
    rw [leafXad, hmem]
    exact if_pos hleaf
  rw [List.filterMap_map, xads_eq, ← List.filterMap_eq_map]
  refine List.filterMap_congr (fun i _ => ?_)
  exact hread i

theorem spec_eq_ret {p : Exn → Bool} {r : Option (Outcome Exn (List Xad))} {v : List Xad} :
    r.map (Outcome.spec p) = some (.ret v) ↔ r = some (.ret v) := by
  rw [Option.map_eq_some_iff]
  refine ⟨?_, ?_⟩
  · rintro ⟨o, rfl, ho⟩
    cases o with
    | ret a => rw [Outcome.ret.inj ho]
    | raise e =>
      rw [Outcome.spec] at ho
      split at ho <;> cases ho
    | terminate => cases ho
  · rintro rfl
    exact ⟨_, rfl, rfl⟩

/-- The loop over the entries of an internal node appends what is read below it. -/
theorem eachXad_eq_reads {visit : Xad → List Xad → Option (Outcome Exn (List Xad))}
    {below : Xad → List XadRead} {returns : Xad → Bool} {is : List ℕ} {v v' : List Xad}
    (hvisit : ∀ x v v', visit x v = some (.ret v') →
      returns x = true ∧ v' = v ++ (below x).filterMap (leafXad env d))
    (hnode : ∀ i, leafXad env d (n, i) = none)
    (h : eachXad visit (is.map (Xtpage.xad b pos)) v = some (.ret v')) :
    v' = v ++ (eachRead below returns n b pos is).filterMap (leafXad env d) := by
  induction is generalizing v with
  | nil =>
    obtain rfl := Outcome.ret.inj (Option.some.inj h)
    exact (List.append_nil v).symm
  | cons i is ih =>
    rw [List.map_cons, eachXad] at h
    split at h
    · rename_i w hw
      obtain ⟨hret, rfl⟩ := hvisit _ _ _ hw
      rw [ih h, eachRead, List.filterMap_cons_none (hnode i), if_pos hret, List.filterMap_append,
        List.append_assoc]
    · rename_i hne
      exact absurd h (hne v')

/-- What a node and those below it contribute. -/
theorem nodeXads_eq_reads (hmem : nodeMemory env d n = some (b, pos)) {v v' : List Xad}
    (hbelow : ∀ x v v', getInternalXtpage env fuel x v = some (.ret v') →
      v' = v ++ (reads env d fuel (.page x.address)).filterMap (leafXad env d))
    (h : (if Xtpage.nextindex b pos ≤ 2 then some (.ret v)
      else if isLeaf (Xtpage.flag b pos) then some (.ret (getLeafXads b pos v))
      else getInternalXads (getInternalXtpage env fuel) b pos v) = some (.ret v')) :
    v' = v ++ (reads env d (fuel + 1) n).filterMap (leafXad env d) := by
  rw [reads, hmem]
  dsimp only
  by_cases hidx : Xtpage.nextindex b pos ≤ 2
  · rw [if_pos hidx] at h ⊢
    obtain rfl := Outcome.ret.inj (Option.some.inj h)
    exact (List.append_nil v).symm
  · rw [if_neg hidx] at h ⊢
    by_cases hleaf : isLeaf (Xtpage.flag b pos)
    · rw [if_pos hleaf] at h ⊢
      obtain rfl := Outcome.ret.inj (Option.some.inj h)
      rw [filterMap_leafXad_of_leaf hmem hleaf, getLeafXads]
    · rw [if_neg hleaf] at h ⊢
      rw [getInternalXads, spec_eq_ret, xads_eq] at h
      refine eachXad_eq_reads (fun x w w' hx => ⟨?_, hbelow x w w' hx⟩) (fun i => ?_) h
      · rw [returns_iff (d := d), ← getInternalXtpage_visit x w, hx]
        rfl
      · rw [leafXad, hmem]
        exact if_neg hleaf

theorem getInternalXtpage_eq_reads (x : Xad) (v v' : List Xad)
    (h : getInternalXtpage env fuel x v = some (.ret v')) :
    v' = v ++ (reads env d fuel (.page x.address)).filterMap (leafXad env d) := by
  induction fuel generalizing x v v' with
  | zero => cases h
  | succ fuel ih =>
    rw [getInternalXtpage, spec_eq_ret] at h
    cases hread : env.readBytes (x.address * env.device.blocksize.bytes) xtpageBytes env.fresh with
    | ret xtree =>
      rw [hread] at h
      have hmem : nodeMemory env d (.page x.address) = some (xtree, 0) := by
        rw [nodeMemory, hread]
      exact nodeXads_eq_reads hmem ih h
    | raise e =>
      rw [hread] at h
      cases h
    | terminate =>
      rw [hread] at h
      cases h

/-- **The extents that are collected are the entries of leaves that are read**, in their
order. -/
theorem collectXads_eq_reads {xads : List Xad}
    (hroot : ¬ Xtpage.nextindex (dinodeMemory env d) rootPos ≤ 2)
    (h : collectXads env fuel d = some (.ret xads)) :
    xads = (reads env d (fuel + 1) .root).filterMap (leafXad env d) := by
  rw [← List.nil_append (List.filterMap _ _)]
  refine nodeXads_eq_reads rfl getInternalXtpage_eq_reads ?_
  rw [if_neg hroot]
  exact h

/-! ### Inside the arrays -/

/-- The loops do not leave the array of the node: `nextindex` is not behind its end, or the
tree below one of its entries has a page that cannot be read or that leads to itself, so
that the loop does not come to the end. -/
def Inside (env : Env) (d : Dinode) (n : XtNode) : Prop :=
  ∀ b pos, nodeMemory env d n = some (b, pos) → Xtpage.nextindex b pos ≤ n.slots ∨
    ¬ isLeaf (Xtpage.flag b pos) ∧
      ∃ j, 2 ≤ j ∧ j < n.slots ∧ ¬ Sound (xtKids env d) (childAt b pos j)

theorem XtNode.two_lt_slots (n : XtNode) : 2 < n.slots := by
  cases n with
  | root => decide
  | page address => show 2 < 256; decide

/-- **A node is read inside its array** if and only if the loop does not come to the first
entry behind it. -/
theorem inside_iff : Inside env d n ↔ ∀ i, ReadsAt env d n i → i < n.slots := by
  have h2 := XtNode.two_lt_slots n
  refine ⟨fun h i hat => ?_, fun h b pos hmem => ?_⟩
  · obtain ⟨b, pos, hmem, hi, hcomes⟩ := hat
    have hidx := mem_indices.mp hi
    rcases h b pos hmem with hle | ⟨hleaf, j, hj2, hj, hns⟩
    · omega
    · by_contra hlt
      exact hns (hcomes.resolve_left hleaf j hj2 (by omega))
  · by_contra hnot
    rw [not_or, not_and_or, not_not, not_exists] at hnot
    obtain ⟨hidx, hrest⟩ := hnot
    -- the first entry behind the array
    have hat : ReadsAt env d n n.slots := by
      refine ⟨b, pos, hmem, mem_indices.mpr ⟨by omega, by omega⟩, ?_⟩
      refine hrest.imp_right (fun hsound j hj2 hj => ?_)
      by_contra hns
      exact hsound j ⟨hj2, hj, hns⟩
    exact absurd (h _ hat) (Nat.lt_irrefl _)

/-- **All that is read of an extent tree lies inside the nodes** exactly if each node that
is come to has a `nextindex` that is not too large, or is not read to its end. -/
theorem readsInside_iff (env : Env) (d : Dinode) :
    (∀ fuel, ∀ r ∈ reads env d fuel .root, r.2 < r.1.slots) ↔
      ∀ n, Relation.ReflTransGen (Reached (xtKids env d)) .root n → Inside env d n := by
  refine ⟨fun h n hreach => inside_iff.mpr (fun i hat => ?_), fun h fuel r hr => ?_⟩
  · obtain ⟨fuel, hfuel⟩ := mem_reads_of_reached hreach hat
    exact h fuel _ (hfuel fuel (Nat.le_refl _))
  · obtain ⟨hreach, hat⟩ := reached_of_mem_reads hr
    exact inside_iff.mp (h r.1 hreach) r.2 hat

/-- A file whose root has a `nextindex` of 19. -/
def pastRoot : Env := (Device.disk [(53, 0x80), (240, 2), (242, 19)]).zeroed

/-- **The entry behind the inode is read.** -/
theorem not_readsInside_pastRoot :
    ¬ ∀ fuel, ∀ r ∈ reads pastRoot (pastRoot.readDinode 0) fuel .root, r.2 < r.1.slots := by
  intro h
  exact absurd (h 1 (.root, 18) (by decide)) (by decide)

end FileInode

end Jfsrec
