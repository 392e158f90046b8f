import Jfsrec.Lib.SparseFile

/-!
# Files byte by byte

What writes put into a file are bytes, each at its position, one after another.  The file that
they leave depends on these bytes only, and not on how the writes group them: `size_writes`,
`lastByte_writes`.

A file is often written, cut to a size, and written on.  `run_cut` says what is in it then, and
`run_done_eq_iff` when a run that is cut short leaves the same.
-/

namespace Lib

def Patch.puts (w : Patch) : List (UInt8 × ℕ) := w.data.zipIdx w.pos

def FileOp.puts : FileOp → List (UInt8 × ℕ)
  | .write w => w.puts
  | .truncate _ => []

/-- The byte that has been put last at a position. -/
def lastPut (l : List (UInt8 × ℕ)) (k : ℕ) : Option UInt8 :=
  ((l.filter (fun c => c.2 = k)).getLast?).map Prod.fst

def held (l : List (UInt8 × ℕ)) (k : ℕ) : UInt8 := (lastPut l k).getD 0

/-- The length of the file: the end of the last position that there is. -/
def reach (l : List (UInt8 × ℕ)) : ℕ := l.foldr (fun c n => max (c.2 + 1) n) 0

variable {l m : List (UInt8 × ℕ)} {c : UInt8 × ℕ} {k n : ℕ} {w : Patch} {ws : List Patch}

/-! ### Bytes at a position -/

theorem lastPut_append (l m : List (UInt8 × ℕ)) (k : ℕ) :
    lastPut (l ++ m) k = (lastPut m k).or (lastPut l k) := by
  rw [lastPut, List.filter_append, List.getLast?_append, Option.map_or]
  rfl

theorem lastPut_singleton (c : UInt8 × ℕ) (k : ℕ) :
    lastPut [c] k = if c.2 = k then some c.1 else none := by
  by_cases h : c.2 = k
  · simp [lastPut, h]
  · simp [lastPut, h]

theorem mem_of_lastPut {b : UInt8} (h : lastPut l k = some b) : (b, k) ∈ l := by
  obtain ⟨c, hc, rfl⟩ := Option.map_eq_some_iff.mp h
  obtain ⟨hmem, hk⟩ := List.mem_filter.mp (List.mem_of_getLast? hc)
  rwa [← of_decide_eq_true hk]

theorem lastPut_eq_none (h : ∀ c ∈ l, c.2 ≠ k) : lastPut l k = none := by
  rw [Option.eq_none_iff_forall_not_mem]
  intro b hb
  exact h _ (mem_of_lastPut hb) rfl

/-- Bytes at different positions are all there in the end. -/
theorem lastPut_of_mem (hl : l.Pairwise (fun c e => c.2 ≠ e.2)) (hc : c ∈ l) :
    lastPut l c.2 = some c.1 := by
  obtain ⟨front, back, rfl⟩ := List.append_of_mem hc
  have hback : lastPut back c.2 = none := by
    apply lastPut_eq_none
    intro e he heq
    exact (List.pairwise_cons.mp (List.pairwise_append.mp hl).2.1).1 e he heq.symm
  rw [List.append_cons, lastPut_append, lastPut_append, hback, Option.none_or, lastPut_singleton,
    if_pos rfl, Option.some_or]

theorem reach_append (l m : List (UInt8 × ℕ)) : reach (l ++ m) = max (reach l) (reach m) := by
  induction l with
  | nil => exact (Nat.zero_max _).symm
  | cons c l ih =>
    show max (c.2 + 1) (reach (l ++ m)) = max (max (c.2 + 1) (reach l)) (reach m)
    rw [ih, Nat.max_assoc]

theorem reach_le_iff : reach l ≤ n ↔ ∀ c ∈ l, c.2 < n := by
  induction l with
  | nil => simp [reach]
  | cons c l ih =>
    have hcons : reach (c :: l) = max (c.2 + 1) (reach l) := rfl
    rw [hcons, Nat.max_le, ih, List.forall_mem_cons]
    rfl

theorem lt_reach (hc : c ∈ l) : c.2 < reach l := reach_le_iff.mp (Nat.le_refl _) c hc

theorem exists_reach (h : 0 < reach l) : ∃ c ∈ l, c.2 + 1 = reach l := by
  by_contra hnone
  have hle : reach l ≤ reach l - 1 := by
    refine reach_le_iff.mpr (fun c hc => ?_)
    have hlt := lt_reach hc
    have hne : c.2 + 1 ≠ reach l := fun heq => hnone ⟨c, hc, heq⟩
    omega
  omega

theorem held_of_mem (hl : l.Pairwise (fun c e => c.2 ≠ e.2)) (hc : c ∈ l) : held l c.2 = c.1 := by
  rw [held, lastPut_of_mem hl hc]
  rfl

theorem held_of_forall_ne (h : ∀ c ∈ l, c.2 ≠ k) : held l k = 0 := by
  rw [held, lastPut_eq_none h]
  rfl

theorem held_of_reach_le (h : reach l ≤ k) : held l k = 0 :=
  held_of_forall_ne (fun _ hc => Nat.ne_of_lt (Nat.lt_of_lt_of_le (lt_reach hc) h))

theorem held_append_of_forall_ne (l : List (UInt8 × ℕ)) (h : ∀ c ∈ m, c.2 ≠ k) :
    held (l ++ m) k = held l k := by
  rw [held, lastPut_append, lastPut_eq_none h]
  rfl

theorem held_append_of_mem (l : List (UInt8 × ℕ)) (hm : m.Pairwise (fun c e => c.2 ≠ e.2))
    (hc : c ∈ m) : held (l ++ m) c.2 = c.1 := by
  rw [held, lastPut_append, lastPut_of_mem hm hc]
  rfl

/-! ### The bytes of writes -/

theorem Patch.puts_cons (p : ℕ) (b : UInt8) (bs : List UInt8) :
    Patch.puts ⟨p, b :: bs⟩ = (b, p) :: Patch.puts ⟨p + 1, bs⟩ := List.zipIdx_cons

theorem Patch.length_puts (w : Patch) : w.puts.length = w.data.length := List.length_zipIdx

theorem Patch.mem_puts : c ∈ w.puts ↔ ∃ i, c.2 = w.pos + i ∧ w.data[i]? = some c.1 := by
  obtain ⟨b, p⟩ := c
  rw [puts, List.mk_mem_zipIdx_iff_le_and_getElem?_sub]
  refine ⟨?_, ?_⟩
  · rintro ⟨hle, hget⟩
    exact ⟨p - w.pos, by dsimp only; omega, hget⟩
  · rintro ⟨i, rfl, hget⟩
    exact ⟨Nat.le_add_right _ _, by rwa [Nat.add_sub_cancel_left]⟩

theorem Patch.puts_ascending (w : Patch) : w.puts.Pairwise (fun c e => c.2 < e.2) := by
  obtain ⟨p, bs⟩ := w
  induction bs generalizing p with
  | nil => exact List.Pairwise.nil
  | cons b bs ih =>
    rw [puts_cons, List.pairwise_cons]
    refine ⟨fun c hc => ?_, ih (p + 1)⟩
    obtain ⟨i, hi, _⟩ := mem_puts.mp hc
    dsimp only at hi ⊢
    omega

theorem Patch.take_append_drop_puts (w : Patch) (n : ℕ) :
    (w.take n).puts ++ (w.drop n).puts = w.puts := by
  have hsplit : w.puts = (w.data.take n ++ w.data.drop n).zipIdx w.pos := by
    rw [List.take_append_drop]
    rfl
  rw [hsplit, List.zipIdx_append]
  by_cases hn : n ≤ w.data.length
  · rw [List.length_take, Nat.min_eq_left hn]
    rfl
  · have hdrop : w.data.drop n = [] := List.drop_eq_nil_iff.mpr (by omega)
    unfold puts take drop
    rw [hdrop]
    rfl

theorem Patch.lastPut_puts (w : Patch) (k : ℕ) : lastPut w.puts k = w.byteAt k := by
  have hdiff : w.puts.Pairwise (fun c e => c.2 ≠ e.2) :=
    w.puts_ascending.imp (fun h => Nat.ne_of_lt h)
  cases hb : w.byteAt k with
  | none =>
    apply lastPut_eq_none
    rintro c hc rfl
    have hsome := byteAt_eq_some.mpr (mem_puts.mp hc)
    rw [hb] at hsome
    cases hsome
  | some b =>
    have hmem : (b, k) ∈ w.puts := mem_puts.mpr (byteAt_eq_some.mp hb)
    exact lastPut_of_mem hdiff hmem

theorem Patch.reach_puts (w : Patch) :
    reach w.puts = if w.data = [] then 0 else w.pos + w.data.length := by
  obtain ⟨p, bs⟩ := w
  induction bs generalizing p with
  | nil => rfl
  | cons b bs ih =>
    have hcons : reach (puts ⟨p, b :: bs⟩) = max (p + 1) (reach (puts ⟨p + 1, bs⟩)) := by
      rw [puts_cons]
      rfl
    rw [hcons, ih, if_neg (List.cons_ne_nil _ _), List.length_cons]
    dsimp only
    split
    · rename_i hnil
      rw [hnil, List.length_nil]
      omega
    · omega

namespace SparseFile

/-- **The size that writes leave** is that of the file, or as far as they reach. -/
theorem size_writes (s : ℕ) (ws : List Patch) :
    (ws.map .write).foldl sizeAfter s = max s (reach (ws.flatMap Patch.puts)) := by
  induction ws generalizing s with
  | nil => exact (Nat.max_zero s).symm
  | cons w ws ih =>
    have hw : sizeAfter s (.write w) = max s (reach w.puts) := by
      rw [sizeAfter, w.reach_puts]
      split
      · exact (Nat.max_zero s).symm
      · rfl
    rw [List.map_cons, List.foldl_cons, ih, hw, List.flatMap_cons, reach_append, Nat.max_assoc]

/-- **The bytes that writes leave** are those that they put last. -/
theorem lastByte_writes (ws : List Patch) (k : ℕ) :
    lastByte (ws.map .write) k = lastPut (ws.flatMap Patch.puts) k := by
  induction ws using List.reverseRecOn with
  | nil => rfl
  | append_singleton ws w ih =>
    rw [List.map_append, List.map_singleton, lastByte_concat, ih, List.flatMap_append,
      List.flatMap_singleton, lastPut_append, w.lastPut_puts]
    rfl

theorem lastByte_append (ops ops' : List FileOp) (k : ℕ) :
    lastByte (ops ++ ops') k = (lastByte ops' k).or (lastByte ops k) := by
  induction ops' using List.reverseRecOn with
  | nil =>
    rw [List.append_nil]
    exact Option.none_or.symm
  | append_singleton ops' op ih =>
    rw [← List.append_assoc, lastByte_concat, lastByte_concat, ih, Option.or_assoc]

/-! ### Files that are cut -/

/-- Writes, a truncation if there is one, and more writes. -/
def cutBetween (front : List Patch) (cut : Option ℕ) (back : List Patch) : List FileOp :=
  front.map .write ++ (cut.toList.map .truncate ++ back.map .write)

/-- How long the file is when `l` has been put, the end of it, `late`, after the cut. -/
def lengthLeft (cut : Option ℕ) (l late : List (UInt8 × ℕ)) : ℕ :=
  match cut with
  | none => reach l
  | some size => max size (reach late)

def heldLeft (cut : Option ℕ) (l late : List (UInt8 × ℕ)) (k : ℕ) : UInt8 :=
  match cut with
  | none => held l k
  | some size => held (if k < size then l else late) k

/-- **What is in a file that was cut** is what was put below the size, and what was put after. -/
theorem run_cut (front back : List Patch) (cut : Option ℕ) :
    (empty.run (cutBetween front cut back)).size = lengthLeft cut
        (front.flatMap Patch.puts ++ back.flatMap Patch.puts) (back.flatMap Patch.puts) ∧
      ∀ k, (empty.run (cutBetween front cut back)).byte k = heldLeft cut
        (front.flatMap Patch.puts ++ back.flatMap Patch.puts) (back.flatMap Patch.puts) k := by
  refine ⟨?_, fun k => ?_⟩
  · rw [size_run, cutBetween, List.foldl_append, List.foldl_append, size_writes, size_writes]
    cases cut with
    | none =>
      rw [lengthLeft, reach_append]
      exact congrArg (max · _) (Nat.zero_max _)
    | some size => rfl
  · rw [byte_run, cutBetween, lastByte_append, lastByte_append, lastByte_writes, lastByte_writes]
    cases cut with
    | none =>
      rw [heldLeft, held, lastPut_append]
      exact congrArg (fun b => Option.getD b 0) (by rw [Option.toList_none, List.map_nil, lastByte,
        List.foldl_nil, Option.or_none])
    | some size =>
      have hcut : lastByte ((some size).toList.map .truncate) k
          = if size ≤ k then some 0 else none := by
        rw [Option.toList_some, List.map_singleton, lastByte, List.foldl_cons, List.foldl_nil,
          Option.or_none, left]
      rw [hcut, heldLeft]
      by_cases hk : k < size
      · rw [if_neg (by omega), if_pos hk, Option.or_none, held, lastPut_append]
        rfl
      · rw [if_pos (by omega), if_neg hk, held]
        cases lastPut (back.flatMap Patch.puts) k with
        | none => rfl
        | some b => rfl

/-! ### Runs cut short -/

def putCount (ops : List FileOp) : ℕ := (ops.flatMap FileOp.puts).length

def isCut (ops : List FileOp) : Bool :=
  ops.any (fun op => match op with
    | .truncate _ => true
    | .write _ => false)

/-- What is not done does not show, when the first `m` bytes of `l` have been put.  Behind the cut,
what is left to put is there already; before it, the file is as long as it will be, and holds what
it will hold. -/
def LacksNothing (cut : Option ℕ) (l late : List (UInt8 × ℕ)) (m : ℕ) (isCut : Bool) : Prop :=
  match cut, isCut with
  | some size, true => ∀ c ∈ l.drop m, c.2 < size ∧ held (l.take m) c.2 = c.1
  | _, _ => reach (l.take m) = lengthLeft cut l late ∧
      ∀ k, held (l.take m) k = heldLeft cut l late k

theorem flatMap_puts_writes (ws : List Patch) :
    (ws.map .write).flatMap FileOp.puts = ws.flatMap Patch.puts := List.flatMap_map ..

theorem putCount_writes (ws : List Patch) :
    putCount (ws.map .write) = (ws.flatMap Patch.puts).length := by
  rw [putCount, flatMap_puts_writes]

theorem isCut_writes (ws : List Patch) : isCut (ws.map .write) = false := by
  rw [isCut, List.any_map, List.any_eq_false]
  intro w _
  exact Bool.false_ne_true

theorem isCut_cutBetween (front back : List Patch) (size : ℕ) :
    isCut (cutBetween front (some size) back) = true := by
  rw [isCut, List.any_eq_true]
  exact ⟨.truncate size, by simp [cutBetween], rfl⟩

/-- A run of writes that is cut short is one of writes, which put a part of the bytes. -/
theorem done_writes (ws : List Patch) (i n : ℕ) : ∃ ws' : List Patch,
    done (ws.map .write) i n = ws'.map .write ∧
      ws'.flatMap Patch.puts <+: ws.flatMap Patch.puts := by
  induction ws generalizing i with
  | nil => exact ⟨[], rfl, List.prefix_rfl⟩
  | cons w ws ih =>
    rw [List.flatMap_cons]
    cases i with
    | zero =>
      refine ⟨[w.take n], rfl, ?_⟩
      rw [List.flatMap_singleton, ← w.take_append_drop_puts n, List.append_assoc]
      exact List.prefix_append _ _
    | succ i =>
      obtain ⟨ws', hdone, hpre⟩ := ih i
      refine ⟨w :: ws', ?_, ?_⟩
      · rw [List.map_cons, List.map_cons, ← hdone]
        rfl
      · rw [List.flatMap_cons]
        exact (List.prefix_append_right_inj _).mpr hpre

theorem done_append (xs ys : List FileOp) (i n : ℕ) :
    done (xs ++ ys) i n
      = if i < xs.length then done xs i n else xs ++ done ys (i - xs.length) n := by
  induction xs generalizing i with
  | nil => rfl
  | cons x xs ih =>
    cases i with
    | zero => rfl
    | succ i =>
      show x :: done (xs ++ ys) i n = _
      rw [ih, List.length_cons]
      by_cases hi : i < xs.length
      · rw [if_pos hi, if_pos (by omega)]
        rfl
      · rw [if_neg hi, if_neg (by omega), Nat.add_sub_add_right]
        rfl

/-- Where a run may be cut short: before the cut, or behind it. -/
theorem done_cut (front back : List Patch) (cut : Option ℕ) (i n : ℕ) :
    (∃ ws : List Patch, done (cutBetween front cut back) i n = ws.map .write ∧
      ws.flatMap Patch.puts <+: front.flatMap Patch.puts ++ back.flatMap Patch.puts ∧
      (cut ≠ none → ws.flatMap Patch.puts <+: front.flatMap Patch.puts)) ∨
    ∃ size, cut = some size ∧ ∃ back' : List Patch,
      done (cutBetween front cut back) i n = cutBetween front cut back' ∧
        back'.flatMap Patch.puts <+: back.flatMap Patch.puts := by
  rw [cutBetween, done_append]
  split
  · obtain ⟨ws, hdone, hpre⟩ := done_writes front i n
    exact Or.inl ⟨ws, hdone, hpre.trans (List.prefix_append _ _), fun _ => hpre⟩
  · rename_i hi
    cases cut with
    | none =>
      obtain ⟨ws, hdone, hpre⟩ := done_writes back (i - (front.map FileOp.write).length) n
      refine Or.inl ⟨front ++ ws, ?_, ?_, fun hcut => absurd rfl hcut⟩
      · rw [List.map_append, ← hdone]
        rfl
      · rw [List.flatMap_append]
        exact (List.prefix_append_right_inj _).mpr hpre
    | some size =>
      cases hrest : i - (front.map FileOp.write).length with
      | zero =>
        refine Or.inl ⟨front, ?_, List.prefix_append _ _, fun _ => List.prefix_rfl⟩
        exact List.append_nil _
      | succ j =>
        obtain ⟨back', hdone, hpre⟩ := done_writes back j n
        refine Or.inr ⟨size, rfl, back', ?_, hpre⟩
        rw [cutBetween, ← hdone]
        rfl

/-- **Behind the cut, what is missing does not show exactly if it is there already.** -/
theorem left_eq_iff {l late late' : List (UInt8 × ℕ)} {size m : ℕ}
    (hlate : late.Pairwise (fun c e => c.2 < e.2)) (hpre : late' <+: late)
    (hl : ∃ front, l = front ++ late ∧ l.take m = front ++ late') :
    (max size (reach late') = max size (reach late) ∧
        ∀ k, heldLeft (some size) (l.take m) late' k = heldLeft (some size) l late k) ↔
      ∀ c ∈ l.drop m, c.2 < size ∧ held (l.take m) c.2 = c.1 := by
  obtain ⟨front, rfl, htake⟩ := hl
  obtain ⟨rest, rfl⟩ := hpre
  have hdrop : (front ++ (late' ++ rest)).drop m = rest := by
    have hsplit := List.take_append_drop m (front ++ (late' ++ rest))
    rw [htake] at hsplit
    exact List.append_cancel_left (hsplit.trans (List.append_assoc ..).symm)
  obtain ⟨_, hrest, hcross⟩ := List.pairwise_append.mp hlate
  have hheld : ∀ l, ∀ c ∈ rest, held (l ++ rest) c.2 = c.1 :=
    fun l c hc => held_append_of_mem l (hrest.imp (fun h => Nat.ne_of_lt h)) hc
  rw [hdrop, htake, reach_append, ← List.append_assoc]
  constructor
  · rintro ⟨hsize, hbytes⟩ c hc
    -- what has been put of the late bytes lies before what has not
    have hbefore : reach late' ≤ c.2 := reach_le_iff.mpr (fun e he => hcross e he c hc)
    have hreach : c.2 < reach rest := lt_reach hc
    have hlt : c.2 < size := by omega
    have hbyte := hbytes c.2
    rw [heldLeft, heldLeft, if_pos hlt, if_pos hlt, hheld _ c hc] at hbyte
    exact ⟨hlt, hbyte⟩
  · intro h
    have hreach : reach rest ≤ size := reach_le_iff.mpr (fun c hc => (h c hc).1)
    refine ⟨by omega, fun k => ?_⟩
    rw [heldLeft, heldLeft]
    by_cases hk : ∃ c ∈ rest, c.2 = k
    · obtain ⟨c, hc, rfl⟩ := hk
      rw [if_pos (h c hc).1, if_pos (h c hc).1, hheld _ c hc]
      exact (h c hc).2
    · have hnone : ∀ c ∈ rest, c.2 ≠ k := fun c hc heq => hk ⟨c, hc, heq⟩
      split
      · exact (held_append_of_forall_ne _ hnone).symm
      · exact (held_append_of_forall_ne _ hnone).symm

theorem ne_of_mem_take_drop (hl : l.Pairwise (fun c e => c.2 ≠ e.2)) {e : UInt8 × ℕ}
    (he : e ∈ l.take n) (hc : c ∈ l.drop n) : e.2 ≠ c.2 := by
  rw [← List.take_append_drop n l] at hl
  exact (List.pairwise_append.mp hl).2.2 e he c hc

/-- The first bytes are all that is needed at a position where only zeros are missing. -/
theorem held_take_iff (hl : l.Pairwise (fun c e => c.2 ≠ e.2)) :
    held (l.take n) k = held l k ↔ ∀ c ∈ l.drop n, c.2 = k → c.1 = 0 := by
  have hzero : ∀ c ∈ l.drop n, held (l.take n) c.2 = 0 :=
    fun c hc => held_of_forall_ne (fun e he => ne_of_mem_take_drop hl he hc)
  constructor
  · rintro h c hc rfl
    rw [hzero c hc, held_of_mem hl (List.mem_of_mem_drop hc)] at h
    exact h.symm
  · intro h
    by_cases hmissing : ∃ c ∈ l.drop n, c.2 = k
    · obtain ⟨c, hc, rfl⟩ := hmissing
      rw [hzero c hc, held_of_mem hl (List.mem_of_mem_drop hc), h c hc rfl]
    · have hsame := held_append_of_forall_ne (k := k) (l.take n)
        (fun c hc heq => hmissing ⟨c, hc, heq⟩)
      rw [List.take_append_drop] at hsame
      exact hsame.symm

/-- **Bytes that are all at different positions lack nothing exactly if those that are missing
below the size are zeros**, and the length is right: behind the cut nothing is missing above the
size; before it, what has been put ends with the size, and what is put after the cut ends there or
before. -/
theorem lacksNothing_iff {l late : List (UInt8 × ℕ)} {size m : ℕ} {isCut : Bool}
    (hl : l.Pairwise (fun c e => c.2 ≠ e.2)) (hlate : isCut = false → late <:+ l.drop m) :
    LacksNothing (some size) l late m isCut ↔ (∀ c ∈ l.drop m, c.2 < size → c.1 = 0) ∧
      if isCut then ∀ c ∈ l.drop m, c.2 < size
      else reach (l.take m) = size ∧ reach late ≤ size := by
  cases isCut with
  | true =>
    have hbyte : ∀ c ∈ l.drop m, (held (l.take m) c.2 = c.1 ↔ c.1 = 0) := by
      intro c hc
      rw [held_of_forall_ne (fun e he => ne_of_mem_take_drop hl he hc), eq_comm]
    rw [LacksNothing, if_pos rfl]
    refine ⟨fun h => ⟨fun c hc _ => (hbyte c hc).mp (h c hc).2, fun c hc => (h c hc).1⟩, ?_⟩
    exact fun h c hc => ⟨h.2 c hc, (hbyte c hc).mpr (h.1 c hc (h.2 c hc))⟩
  | false =>
    rw [LacksNothing, if_neg Bool.false_ne_true]
    · show reach (l.take m) = max size (reach late) ∧
        (∀ k, held (l.take m) k = held (if k < size then l else late) k) ↔ _
      constructor
      · rintro ⟨hreach, hbytes⟩
        have hle : reach late ≤ size := by
          -- the last of the late bytes is not among those that have been put
          by_contra hlt
          obtain ⟨c, hc, hcr⟩ := exists_reach (l := late) (by omega)
          obtain ⟨e, he, her⟩ := exists_reach (l := l.take m) (by omega)
          exact ne_of_mem_take_drop hl he ((hlate rfl).mem hc) (by omega)
        refine ⟨fun c hc hlt => ?_, by omega, hle⟩
        have hbyte := hbytes c.2
        rw [if_pos hlt, held_take_iff hl] at hbyte
        exact hbyte c hc rfl
      · rintro ⟨hzero, hreach, hle⟩
        refine ⟨by omega, fun k => ?_⟩
        by_cases hk : k < size
        · rw [if_pos hk, held_take_iff hl]
          rintro c hc rfl
          exact hzero c hc hk
        · rw [if_neg hk, held_of_reach_le (by omega), held_of_reach_le (by omega)]
    · intro _ _ h
      cases h

/-- A run that has not cut the file has put nothing of what comes behind the cut. -/
theorem suffix_drop_done {front back : List Patch} {size i n : ℕ}
    (h : isCut (done (cutBetween front (some size) back) i n) = false) :
    back.flatMap Patch.puts <:+ (front.flatMap Patch.puts ++ back.flatMap Patch.puts).drop
      (putCount (done (cutBetween front (some size) back) i n)) := by
  rcases done_cut front back (some size) i n with ⟨ws, hdone, _, hpre⟩ | ⟨_, _, back', hdone, _⟩
  · have hle := (hpre (Option.some_ne_none size)).length_le
    rw [hdone, putCount_writes, List.drop_append_of_le_length hle]
    exact List.suffix_append _ _
  · rw [hdone, isCut_cutBetween] at h
    cases h

/-- **A run that is cut short leaves what the whole run leaves exactly if what it lacks does not
show**, where the bytes behind the cut are in order. -/
theorem run_done_eq_iff (front : List Patch) (cut : Option ℕ) {back : List Patch}
    (hback : (back.flatMap Patch.puts).Pairwise (fun c e => c.2 < e.2)) (i n : ℕ) :
    empty.run (done (cutBetween front cut back) i n) = empty.run (cutBetween front cut back) ↔
      LacksNothing cut (front.flatMap Patch.puts ++ back.flatMap Patch.puts)
        (back.flatMap Patch.puts) (putCount (done (cutBetween front cut back) i n))
        (isCut (done (cutBetween front cut back) i n)) := by
  obtain ⟨hsize, hbyte⟩ := run_cut front back cut
  rw [SparseFile.ext_iff, hsize]
  simp only [hbyte]
  rcases done_cut front back cut i n with ⟨ws, hdone, hpre, _⟩ | ⟨size, rfl, back', hdone, hpre⟩
  · rw [hdone, putCount_writes, isCut_writes]
    have htake := List.prefix_iff_eq_take.mp hpre
    have hsize' : (empty.run (ws.map .write)).size = reach (ws.flatMap Patch.puts) := by
      rw [size_run, size_writes]
      exact Nat.zero_max _
    have hbyte' : ∀ k, (empty.run (ws.map .write)).byte k = held (ws.flatMap Patch.puts) k := by
      intro k
      rw [byte_run, lastByte_writes]
      rfl
    rw [LacksNothing, ← htake, hsize']
    · simp only [hbyte']
    · intro _ _ h
      cases h
  · have hput : putCount (cutBetween front (some size) back')
        = (front.flatMap Patch.puts ++ back'.flatMap Patch.puts).length := by
      rw [putCount, cutBetween, List.flatMap_append, List.flatMap_append, flatMap_puts_writes,
        flatMap_puts_writes]
      rfl
    obtain ⟨hsize', hbyte'⟩ := run_cut front back' (some size)
    have htake := List.prefix_iff_eq_take.mp
      ((List.prefix_append_right_inj (front.flatMap Patch.puts)).mpr hpre)
    rw [hdone, hput, isCut_cutBetween, hsize']
    simp only [hbyte']
    rw [LacksNothing, ← left_eq_iff hback hpre ⟨_, rfl, htake.symm⟩, ← htake]
    rfl

end SparseFile

end Lib
