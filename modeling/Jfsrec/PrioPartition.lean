import Jfsrec.PrioQueue
import Jfsrec.SharedPaths

/-!
# The order of the queue

`generate_prio_queue` has one loop for `--exclude` and one without, and both sort an inode
into one of three deques.  The two that are not first are emptied into it in the end.

`generatePrioQueue_partition` says what comes out: each inode that is not excluded, once, and
in which order.  The full paths may have names that the path library refuses; they are
replaced on the way, and the paths are the same at every call.
-/

namespace Jfsrec

open Lib

namespace Recoverer

/-! ### The two loops -/

/-- What both loops do with an inode that they keep. -/
def classify (legal : List Char → Bool) (fuel : ℕ) (o : PrioOptions) (p : Ptr) (q : Deques)
    (h : Heap) : Option (Deques × Heap) :=
  match searches legal fuel o.first p h with
  | none => none
  | some (true, h) => some (q.push p (some .first), h)
  | some (false, h) =>
      match searches legal fuel o.last p h with
      | none => none
      | some (true, h) => some (q.push p (some .last), h)
      | some (false, h) => some (q.push p (some .normal), h)

def excludingLoop (legal : List Char → Bool) (fuel : ℕ) (o : PrioOptions)
    (exclude : Path → Bool) : List Ptr → Deques → Heap → Option (Deques × Heap)
  | [], q, h => some (q, h)
  | p :: ps, q, h =>
      match fullPath legal fuel p h with
      | none => none
      | some (path, h) =>
          if exclude path then excludingLoop legal fuel o exclude ps q h
          else
            match classify legal fuel o p q h with
            | none => none
            | some (q, h) => excludingLoop legal fuel o exclude ps q h

def plainLoop (legal : List Char → Bool) (fuel : ℕ) (o : PrioOptions) :
    List Ptr → Deques → Heap → Option (Deques × Heap)
  | [], q, h => some (q, h)
  | p :: ps, q, h =>
      match classify legal fuel o p q h with
      | none => none
      | some (q, h) => plainLoop legal fuel o ps q h

/-- `while (normal.size())`, and the same for `last`. -/
def drain : List Ptr → List Ptr → List Ptr
  | first, [] => first
  | first, p :: normal => drain (first ++ [p]) normal

/-- `generate_prio_queue`, with its two branches. -/
def prioQueueBranches (legal : List Char → Bool) (fuel : ℕ) (o : PrioOptions)
    (v : InodeVector) : Option (List Ptr × Heap) :=
  let loop := match o.exclude with
    | some exclude => excludingLoop legal fuel o exclude v.inodes
    | none => plainLoop legal fuel o v.inodes
  (loop ⟨[], [], []⟩ v.heap).map (fun r => (drain (drain r.1.first r.1.normal) r.1.last, r.2))

variable {legal : List Char → Bool} {fuel : ℕ} {o : PrioOptions} {v : InodeVector} {h : Heap}
  {p : Ptr} {l : List Ptr} {pathOf : Ptr → Path}

theorem drain_eq (first l : List Ptr) : drain first l = first ++ l := by
  induction l generalizing first with
  | nil => rw [drain, List.append_nil]
  | cons p l ih => rw [drain, ih, List.append_assoc, List.singleton_append]

theorem rank_of_not_excluded {h' : Heap}
    (hex : searches legal fuel o.exclude p h = some (false, h')) (q : Deques) :
    classify legal fuel o p q h' = (rank legal fuel o p h).map (fun r => (q.push p r.1, r.2)) := by
  rw [classify, rank, hex]
  dsimp only
  rcases searches legal fuel o.first p h' with _ | ⟨_ | _, h2⟩
  · rfl
  · dsimp only
    rcases searches legal fuel o.last p h2 with _ | ⟨_ | _, h3⟩ <;> rfl
  · rfl

theorem plainLoop_eq (hex : o.exclude = none) (q : Deques) :
    plainLoop legal fuel o l q h = fillDeques legal fuel o l q h := by
  induction l generalizing q h with
  | nil => rfl
  | cons p ps ih =>
    have hno : searches legal fuel o.exclude p h = some (false, h) := by
      rw [hex]
      rfl
    rw [plainLoop, fillDeques, rank_of_not_excluded hno]
    cases rank legal fuel o p h with
    | none => rfl
    | some r => exact ih _

theorem excludingLoop_eq {exclude : Path → Bool} (hex : o.exclude = some exclude) (q : Deques) :
    excludingLoop legal fuel o exclude l q h = fillDeques legal fuel o l q h := by
  induction l generalizing q h with
  | nil => rfl
  | cons p ps ih =>
    have hsearch : searches legal fuel o.exclude p h
        = (fullPath legal fuel p h).map (fun r => (exclude r.1, r.2)) := by
      rw [hex]
      rfl
    rw [excludingLoop, fillDeques]
    cases hpath : fullPath legal fuel p h with
    | none =>
      rw [hpath] at hsearch
      rw [rank, hsearch]
      rfl
    | some r =>
      obtain ⟨path, h1⟩ := r
      rw [hpath] at hsearch
      dsimp only
      cases hm : exclude path with
      | true =>
        rw [Option.map_some, hm] at hsearch
        rw [if_pos rfl, rank, hsearch]
        exact ih q
      | false =>
        rw [Option.map_some, hm] at hsearch
        rw [if_neg Bool.false_ne_true, rank_of_not_excluded hsearch]
        cases rank legal fuel o p h with
        | none => rfl
        | some r => exact ih _

theorem prioQueueBranches_eq :
    prioQueueBranches legal fuel o v = generatePrioQueue legal fuel o v := by
  have hloop : ∀ r : Deques × Heap, (drain (drain r.1.first r.1.normal) r.1.last, r.2)
      = (r.1.first ++ r.1.normal ++ r.1.last, r.2) := fun r => by rw [drain_eq, drain_eq]
  rw [prioQueueBranches, generatePrioQueue]
  simp only [hloop]
  cases hex : o.exclude with
  | none =>
    dsimp only
    rw [plainLoop_eq hex]
  | some exclude =>
    dsimp only
    rw [excludingLoop_eq hex]

/-! ### Paths that are the same at every call -/

theorem fullPathOnce_mono {f g : Ptr → Heap → Option (Option Path × Heap)}
    (hfg : ∀ q h r, f q h = some r → g q h = some r) {r : Option Path × Heap}
    (hr : fullPathOnce legal f p h = some r) : fullPathOnce legal g p h = some r := by
  unfold fullPathOnce at hr ⊢
  split at hr
  · rename_i hroot
    rw [if_pos hroot]
    exact hr
  · rename_i hroot
    rw [if_neg hroot]
    cases hcall : f (h.obj p).parent h with
    | none => rw [hcall] at hr; cases hr
    | some res =>
      rw [hcall] at hr
      rw [hfg _ _ _ hcall]
      exact hr

theorem getFullPath_succ {r : Option Path × Heap} (hr : getFullPath legal fuel p h = some r) :
    getFullPath legal (fuel + 1) p h = some r := by
  induction fuel generalizing p h r with
  | zero => cases hr
  | succ fuel ih =>
    have honce : ∀ q h r, fullPathOnce legal (getFullPath legal fuel) q h = some r →
        fullPathOnce legal (getFullPath legal (fuel + 1)) q h = some r :=
      fun q h r => fullPathOnce_mono (fun _ _ _ => ih)
    rw [getFullPath] at hr ⊢
    cases hcall : fullPathOnce legal (getFullPath legal fuel) p h with
    | none => rw [hcall] at hr; cases hr
    | some res =>
      rw [hcall] at hr
      rw [honce _ _ _ hcall]
      obtain ⟨_ | path, k⟩ := res
      · exact honce _ _ _ hr
      · exact hr

theorem getFullPath_mono {n : ℕ} (hn : fuel ≤ n) {r : Option Path × Heap}
    (hr : getFullPath legal fuel p h = some r) : getFullPath legal n p h = some r := by
  induction n, hn using Nat.le_induction with
  | base => exact hr
  | succ n _ ih => exact getFullPath_succ ih

/-- With enough fuel, calls of `get_full_path` for an inode that has a path return it, whatever
names have been replaced before. -/
theorem exists_fuel_returnsPath (hdigits : ∀ n, legal (Nat.toDigits 10 n) = true)
    {path : Path} (hp : HasPath legal v p path) :
    ∃ fuel, ∀ n, fuel ≤ n → ReturnsPath legal n
      (Showing legal v.heap.parentOf (shown legal v.heap)) p path := by
  have htrail := (hasPath_iff hdigits).mp hp
  obtain ⟨_, _, hcall⟩ := hp
  obtain ⟨fuel, hfuel⟩ := returns_of_ends legal (ends_of_getFullPath hcall)
  refine ⟨fuel, fun n hn h hS => ?_⟩
  obtain ⟨r, h', hr, _⟩ := hfuel h hS.parentOf
  obtain ⟨hS', _, ns, rfl, hns⟩ := getFullPath_trail hdigits fuel p h hS r h' hr
  obtain rfl := htrail.unique hns
  refine ⟨h', ?_, hS'⟩
  rw [fullPath, getFullPath_mono hn hr]

theorem exists_fuel_forall {P : ℕ → Ptr → Prop}
    (h : ∀ x ∈ l, ∃ fuel, ∀ n, fuel ≤ n → P n x) : ∃ fuel, ∀ n, fuel ≤ n → ∀ x ∈ l, P n x := by
  induction l with
  | nil => exact ⟨0, fun n _ x hx => absurd hx List.not_mem_nil⟩
  | cons p l ih =>
    rw [List.forall_mem_cons] at h
    obtain ⟨m, hm⟩ := h.1
    obtain ⟨k, hk⟩ := ih h.2
    refine ⟨max m k, fun n hn => List.forall_mem_cons.mpr ⟨hm n (by omega), hk n (by omega)⟩⟩

/-! ### What the queue is -/

def found (re : Option (Path → Bool)) (path : Path) : Bool := re.any (fun re => re path)

def keptBy (o : PrioOptions) (pathOf : Ptr → Path) (l : List Ptr) : List Ptr :=
  l.filter (fun x => !found o.exclude (pathOf x))

/-- Those that match `--first`, then those that match neither, then those that match `--last`
but not `--first`. -/
def ordered (o : PrioOptions) (pathOf : Ptr → Path) (l : List Ptr) : List Ptr :=
  l.filter (fun x => found o.first (pathOf x)) ++
    l.filter (fun x => !found o.first (pathOf x) && !found o.last (pathOf x)) ++
    l.filter (fun x => !found o.first (pathOf x) && found o.last (pathOf x))

/-- What brings an inode that is not excluded into a deque. -/
def Rank.selects (o : PrioOptions) (path : Path) : Rank → Bool
  | first => found o.first path
  | normal => !found o.first path && !found o.last path
  | last => !found o.first path && found o.last path

theorem rankOf_eq_some (o : PrioOptions) (path : Path) (r : Rank) :
    decide (o.rankOf path = some r) = (r.selects o path && !found o.exclude path) := by
  unfold PrioOptions.rankOf PrioOptions.excludes Rank.selects found
  cases o.exclude.any (fun re => re path) <;> cases o.first.any (fun re => re path) <;>
    cases o.last.any (fun re => re path) <;> cases r <;> rfl

theorem queueOf_eq (o : PrioOptions) (pathOf : Ptr → Path) (l : List Ptr) :
    queueOf o pathOf l = ordered o pathOf (keptBy o pathOf l) := by
  have hranked : ∀ r, ranked o pathOf r l
      = (keptBy o pathOf l).filter (fun x => r.selects o (pathOf x)) := by
    intro r
    rw [ranked, keptBy, List.filter_filter]
    exact List.filter_congr (fun x _ => rankOf_eq_some o (pathOf x) r)
  rw [queueOf, hranked, hranked, hranked]
  rfl

theorem ordered_perm (o : PrioOptions) (pathOf : Ptr → Path) (l : List Ptr) :
    (ordered o pathOf l).Perm l := by
  have hrest : (l.filter (fun x => !found o.first (pathOf x) && !found o.last (pathOf x)) ++
      l.filter (fun x => !found o.first (pathOf x) && found o.last (pathOf x))).Perm
      (l.filter (fun x => !found o.first (pathOf x))) := by
    have hsplit := List.filter_append_perm (fun x => !found o.last (pathOf x))
      (l.filter (fun x => !found o.first (pathOf x)))
    rw [List.filter_filter, List.filter_filter] at hsplit
    simpa only [Bool.not_not, Bool.and_comm] using hsplit
  rw [ordered, List.append_assoc]
  exact (hrest.append_left _).trans (List.filter_append_perm _ l)

theorem keptBy_of_not_found (h : ∀ x ∈ l, found o.exclude (pathOf x) = false) :
    keptBy o pathOf l = l := by
  refine List.filter_eq_self.mpr (fun x hx => ?_)
  rw [h x hx]
  rfl

theorem exists_fuel_queue (hdigits : ∀ n, legal (Nat.toDigits 10 n) = true)
    (hpaths : o.Given → ∀ x ∈ v.inodes, HasPath legal v x (pathOf x)) :
    ∃ fuel, ∀ n, fuel ≤ n → ∃ h, prioQueueBranches legal n o v
      = some (ordered o pathOf (keptBy o pathOf v.inodes), h) := by
  obtain ⟨fuel, hfuel⟩ : ∃ fuel, ∀ n, fuel ≤ n → o.Given → ∀ x ∈ v.inodes,
      ReturnsPath legal n (Showing legal v.heap.parentOf (shown legal v.heap)) x (pathOf x) := by
    by_cases ho : o.Given
    · obtain ⟨fuel, hfuel⟩ :=
        exists_fuel_forall (fun x hx => exists_fuel_returnsPath hdigits (hpaths ho x hx))
      exact ⟨fuel, fun n hn _ => hfuel n hn⟩
    · exact ⟨0, fun n _ ho' => absurd ho' ho⟩
  refine ⟨fuel, fun n hn => ?_⟩
  obtain ⟨h, hq, _⟩ := generatePrioQueue_spec (hfuel n hn) ⟨rfl, rfl⟩
  refine ⟨h, ?_⟩
  rw [prioQueueBranches_eq, hq, queueOf_eq]

/-- **The queue holds each inode that is not excluded once**, those that match `--first` in
front and those that match `--last` only at the end; an `--exclude` that matches nothing
makes no difference. -/
theorem generatePrioQueue_partition (hdigits : ∀ n, legal (Nat.toDigits 10 n) = true)
    (o : PrioOptions) (hpaths : o.Given → ∀ x ∈ v.inodes, HasPath legal v x (pathOf x)) :
    (∃ fuel, ∀ n, fuel ≤ n → ∃ h, prioQueueBranches legal n o v
        = some (ordered o pathOf (keptBy o pathOf v.inodes), h)) ∧
      (ordered o pathOf (keptBy o pathOf v.inodes)).Perm (keptBy o pathOf v.inodes) ∧
      ∀ exclude : Path → Bool,
        (∀ x ∈ v.inodes, HasPath legal v x (pathOf x) ∧ exclude (pathOf x) = false) →
        ∃ fuel, ∀ n, fuel ≤ n → ∃ q h h',
          prioQueueBranches legal n { o with exclude := some exclude } v = some (q, h) ∧
          prioQueueBranches legal n { o with exclude := none } v = some (q, h') := by
  refine ⟨exists_fuel_queue hdigits hpaths, ordered_perm o pathOf _, fun exclude hex => ?_⟩
  obtain ⟨m, hm⟩ := exists_fuel_queue (o := { o with exclude := some exclude }) hdigits
    (fun _ x hx => (hex x hx).1)
  obtain ⟨k, hk⟩ := exists_fuel_queue (o := { o with exclude := none }) hdigits
    (fun _ x hx => (hex x hx).1)
  refine ⟨max m k, fun n hn => ?_⟩
  obtain ⟨h, hsome⟩ := hm n (by omega)
  obtain ⟨h', hnone⟩ := hk n (by omega)
  rw [keptBy_of_not_found (o := { o with exclude := some exclude })
    (fun x hx => (hex x hx).2)] at hsome
  rw [keptBy_of_not_found (o := { o with exclude := none }) (fun _ _ => rfl)] at hnone
  exact ⟨_, h, h', hsome, hnone⟩

theorem generatePrioQueue_partition_fileInDir : ∃ fuel h,
    prioQueueBranches (fun _ => true) fuel ⟨none, some (fun ns => ns = [['d'], ['f']]), none⟩
      fileInDir = some ([2, 1], h) := by
  obtain ⟨hone, htwo⟩ := namesTo_fileInDir
  have hpaths : ∀ x ∈ fileInDir.inodes, HasPath (fun _ => true) fileInDir x
      (if x = 1 then [['d']] else [['d'], ['f']]) := by
    intro x hx
    rw [hasPath_iff (fun _ => rfl)]
    rcases List.mem_pair.mp hx with rfl | rfl
    · exact hone
    · exact htwo
  obtain ⟨⟨fuel, hfuel⟩, _⟩ := generatePrioQueue_partition (fun _ => rfl)
    ⟨none, some (fun ns => ns = [['d'], ['f']]), none⟩ (fun _ => hpaths)
  obtain ⟨h, hq⟩ := hfuel fuel (Nat.le_refl _)
  exact ⟨fuel, h, hq⟩

/-! ### Inodes without a path -/

section Necessary

variable {f : Ptr → Option Ptr} {lab : Ptr → List Char}

theorem searches_ends (hdigits : ∀ n, legal (Nat.toDigits 10 n) = true)
    (hS : Showing legal f lab h) {re : Option (Path → Bool)} {r : Bool × Heap}
    (hr : searches legal fuel re p h = some r) :
    Showing legal f lab r.2 ∧ (re ≠ none → Ends f p) := by
  cases re with
  | none =>
    obtain rfl := Option.some.inj hr
    exact ⟨hS, fun h => absurd rfl h⟩
  | some re =>
    obtain ⟨⟨path, h1⟩, hpath, rfl⟩ := Option.map_eq_some_iff.mp hr
    rw [fullPath] at hpath
    split at hpath
    · rename_i hcall
      obtain ⟨rfl, rfl⟩ := Prod.mk.inj (Option.some.inj hpath)
      obtain ⟨hS1, _⟩ := getFullPath_trail hdigits fuel p h hS _ _ hcall
      refine ⟨hS1, fun _ => ?_⟩
      rw [← hS.parentOf]
      exact ends_of_getFullPath hcall
    · cases hpath

theorem rank_ends (hdigits : ∀ n, legal (Nat.toDigits 10 n) = true)
    (hS : Showing legal f lab h) {r : Option Rank × Heap} (hr : rank legal fuel o p h = some r) :
    Showing legal f lab r.2 ∧ (o.Given → Ends f p) := by
  rw [rank] at hr
  split at hr
  · cases hr
  · rename_i h1 hex
    obtain rfl := Option.some.inj hr
    obtain ⟨hS1, hends⟩ := searches_ends hdigits hS hex
    refine ⟨hS1, fun _ => hends (fun hn => ?_)⟩
    rw [hn] at hex
    cases hex
  · rename_i h1 hex
    obtain ⟨hS1, hends1⟩ := searches_ends hdigits hS hex
    split at hr
    · cases hr
    · rename_i h2 hfirst
      obtain rfl := Option.some.inj hr
      obtain ⟨hS2, hends2⟩ := searches_ends hdigits hS1 hfirst
      refine ⟨hS2, fun _ => hends2 (fun hn => ?_)⟩
      rw [hn] at hfirst
      cases hfirst
    · rename_i h2 hfirst
      obtain ⟨hS2, hends2⟩ := searches_ends hdigits hS1 hfirst
      obtain ⟨r', hlast, rfl⟩ := Option.map_eq_some_iff.mp hr
      obtain ⟨hS3, hends3⟩ := searches_ends hdigits hS2 hlast
      refine ⟨hS3, ?_⟩
      rintro (ho | ho | ho)
      · exact hends1 ho
      · exact hends2 ho
      · exact hends3 ho

theorem fillDeques_ends (hdigits : ∀ n, legal (Nat.toDigits 10 n) = true) (ho : o.Given)
    (hS : Showing legal f lab h) {q : Deques} {r : Deques × Heap}
    (hr : fillDeques legal fuel o l q h = some r) : ∀ x ∈ l, Ends f x := by
  induction l generalizing q h with
  | nil => exact fun x hx => absurd hx List.not_mem_nil
  | cons p l ih =>
    rw [fillDeques] at hr
    split at hr
    · cases hr
    · rename_i r' h1 hrank
      obtain ⟨hS1, hends⟩ := rank_ends hdigits hS hrank
      exact List.forall_mem_cons.mpr ⟨hends ho, ih hS1 hr⟩

end Necessary

/-- **There is a queue exactly if no path is asked for, or every inode has one.** -/
theorem prioQueueBranches_iff (hdigits : ∀ n, legal (Nat.toDigits 10 n) = true)
    (o : PrioOptions) (v : InodeVector) :
    (∃ fuel r, prioQueueBranches legal fuel o v = some r) ↔
      (o.Given → ∀ x ∈ v.inodes, ∃ path, HasPath legal v x path) := by
  refine ⟨?_, fun h => ?_⟩
  · rintro ⟨fuel, r, hr⟩ ho x hx
    rw [prioQueueBranches_eq, generatePrioQueue] at hr
    obtain ⟨_, hfill, _⟩ := Option.map_eq_some_iff.mp hr
    obtain ⟨path, htrail⟩ :=
      exists_trail (shown legal v.heap) (fillDeques_ends hdigits ho ⟨rfl, rfl⟩ hfill x hx)
    exact ⟨path, (hasPath_iff hdigits).mpr htrail⟩
  · obtain ⟨pathOf, hpathOf⟩ : ∃ pathOf : Ptr → Path, ∀ x, (∃ path, HasPath legal v x path) →
        HasPath legal v x (pathOf x) := by
      refine Classical.axiomOfChoice (r := fun x path =>
        (∃ path, HasPath legal v x path) → HasPath legal v x path) (fun x => ?_)
      by_cases hx : ∃ path, HasPath legal v x path
      · obtain ⟨path, hpath⟩ := hx
        exact ⟨path, fun _ => hpath⟩
      · exact ⟨[], fun h => absurd h hx⟩
    obtain ⟨fuel, hfuel⟩ := exists_fuel_queue hdigits (fun ho x hx => hpathOf x (h ho x hx))
    obtain ⟨h', hq⟩ := hfuel fuel (Nat.le_refl _)
    exact ⟨fuel, _, hq⟩

end Recoverer

end Jfsrec
