import Jfsrec.FileLength
import Jfsrec.Lib.Puts

/-!
# The bytes of a saved file

Which bytes the copy of the extents puts into the file, byte by byte: those of the device, in the
order of the extents, and behind the end of the device what the copy buffer holds at the place of
the byte.  The first piece that cannot be read ends the copy.

`puts_writeExtents` says that these are the bytes of the writes.
-/

namespace Jfsrec

open Lib

namespace FileInode

def extentFrom (env : Env) (x : Xad) (r : ℕ) : List (Xad × ℕ) :=
  (List.range' r (extentBytes env x - r)).map (fun q => (x, q))

/-- The bytes of all extents in the order of the copy, each as its extent and its place in it. -/
def copyOrder (env : Env) (xads : List Xad) : List (Xad × ℕ) :=
  xads.flatMap (fun x => extentFrom env x 0)

def Readable (env : Env) (c : Xad × ℕ) : Prop :=
  devicePos env c.1 (c.2 / buffsize * buffsize) ≤ env.device.fssize

instance (env : Env) (c : Xad × ℕ) : Decidable (Readable env c) :=
  inferInstanceAs (Decidable (_ ≤ _))

/-- The buffer when the byte has been read.  Behind the end of the device it stays as it was. -/
def received (env : Env) (buffer : Buffer) (c : Xad × ℕ) : Buffer :=
  if devicePos env c.1 c.2 < env.device.stSize then
    Function.update buffer (c.2 % buffsize) (env.device.data (devicePos env c.1 c.2))
  else buffer

/-- The bytes that come to the file, each with its position. -/
def copiedBytes (env : Env) : List (Xad × ℕ) → Buffer → List (UInt8 × ℕ)
  | [], _ => []
  | c :: cs, buffer =>
      if Readable env c then
        (received env buffer c (c.2 % buffsize), filePos env c.1 c.2) ::
          copiedBytes env cs (received env buffer c)
      else []

def fileBytes (env : Env) (xads : List Xad) (buffer : Buffer) : List (UInt8 × ℕ) :=
  copiedBytes env (copyOrder env xads) buffer

variable {env : Env} {x : Xad} {xads : List Xad} {buffer : Buffer} {fuel r : ℕ}
  {rest : List (Xad × ℕ)}

/-! ### The bytes of a piece -/

theorem readable_add {j : ℕ} (hmod : r % buffsize = 0) (hj : j < buffsize) :
    Readable env (x, r + j) ↔ devicePos env x r ≤ env.device.fssize := by
  have hbegin : (r + j) / buffsize * buffsize = r := by
    unfold buffsize at hmod hj ⊢
    omega
  rw [Readable, hbegin]

theorem fread_succ (dev : Device) (p j : ℕ) (buffer : Buffer) :
    dev.fread p (j + 1) buffer = if p + j < dev.stSize then
      Function.update (dev.fread p j buffer) j (dev.data (p + j)) else dev.fread p j buffer := by
  funext k
  by_cases hk : k = j
  · subst hk
    split
    · rename_i hin
      rw [Function.update_self]
      exact if_pos ⟨Nat.lt_succ_self k, hin⟩
    · rename_i hout
      exact (if_neg (fun h => hout h.2)).trans (if_neg (fun h => hout h.2)).symm
  · have hsame : dev.fread p (j + 1) buffer k = dev.fread p j buffer k :=
      if_congr (and_congr_left' (by omega)) rfl rfl
    rw [hsame]
    split
    · rw [Function.update_of_ne hk]
    · rfl

theorem received_fread {j : ℕ} (hmod : r % buffsize = 0) (hj : j < buffsize) :
    received env (env.device.fread (devicePos env x r) j buffer) (x, r + j)
      = env.device.fread (devicePos env x r) (j + 1) buffer := by
  have hplace : (r + j) % buffsize = j := by
    unfold buffsize at hmod hj ⊢
    omega
  have hpos : devicePos env x (r + j) = devicePos env x r + j := (Nat.add_assoc _ _ _).symm
  rw [received, fread_succ, hplace, hpos]

/-- The bytes of a piece, of which `j` have been copied, and those behind it. -/
theorem copiedBytes_piece {j n : ℕ} (hmod : r % buffsize = 0) (hn : j + n ≤ buffsize)
    (hread : devicePos env x r ≤ env.device.fssize) :
    copiedBytes env ((List.range' (r + j) n).map (fun q => (x, q)) ++ rest)
        (env.device.fread (devicePos env x r) j buffer)
      = (List.range' j n).map (fun i =>
          (env.device.fread (devicePos env x r) (j + n) buffer i, filePos env x r + i))
        ++ copiedBytes env rest (env.device.fread (devicePos env x r) (j + n) buffer) := by
  induction n generalizing j with
  | zero => rfl
  | succ n ih =>
    have hj : j < buffsize := by omega
    have hplace : (r + j) % buffsize = j := by
      unfold buffsize at hmod hj ⊢
      omega
    have hbyte : env.device.fread (devicePos env x r) (j + 1) buffer j
        = env.device.fread (devicePos env x r) (j + (n + 1)) buffer j :=
      if_congr (and_congr_left' (by omega)) rfl rfl
    have hnext := ih (j := j + 1) (by omega)
    rw [← Nat.add_assoc, Nat.add_right_comm j 1 n, Nat.add_assoc j n 1] at hnext
    rw [List.range'_succ, List.range'_succ, List.map_cons, List.map_cons, List.cons_append,
      List.cons_append, copiedBytes, if_pos ((readable_add hmod hj).mpr hread),
      received_fread hmod hj, hnext, hplace, hbyte]
    congr 2
    exact (Nat.add_assoc _ _ _).symm

theorem puts_piece (r : ℕ) (buffer : Buffer) : (piece env x r buffer).puts
    = (List.range' 0 (pieceBytes (extentBytes env x) r)).map (fun i =>
        (env.device.fread (devicePos env x r) (pieceBytes (extentBytes env x) r) buffer i,
          filePos env x r + i)) := by
  apply List.ext_getElem?
  intro i
  rw [Patch.puts, piece, List.getElem?_zipIdx, List.getElem?_map, List.getElem?_map,
    ← List.range_eq_range']
  by_cases hi : i < pieceBytes (extentBytes env x) r
  · rw [List.getElem?_range hi]
    rfl
  · rw [List.getElem?_eq_none (by rw [List.length_range]; omega)]
    rfl

/-! ### The bytes of an extent -/

/-- What a copy from `r` on has written are the bytes of the extent from there, as far as they can
be read. -/
structure Writes (env : Env) (x : Xad) (r : ℕ) (buffer : Buffer) (c : Copied) : Prop where
  ret : c.outcome = .ret () → ∀ rest, copiedBytes env (extentFrom env x r ++ rest) buffer
    = c.writes.flatMap Patch.puts ++ copiedBytes env rest c.buffer
  raise : c.outcome ≠ .ret () → ∀ rest, copiedBytes env (extentFrom env x r ++ rest) buffer
    = c.writes.flatMap Patch.puts
  outcome : c.outcome = .ret () ↔ ∀ q ∈ extentFrom env x r, Readable env q

theorem extentFrom_of_le (h : extentBytes env x ≤ r) : extentFrom env x r = [] := by
  rw [extentFrom, Nat.sub_eq_zero_of_le h]
  rfl

theorem extentFrom_piece (h : r < extentBytes env x) :
    extentFrom env x r
      = (List.range' r (pieceBytes (extentBytes env x) r)).map (fun q => (x, q))
        ++ extentFrom env x (r + pieceBytes (extentBytes env x) r) := by
  have hle := pieceBytes_le h
  rw [extentFrom, extentFrom, ← List.map_append, List.range'_append_1]
  congr 2
  omega

theorem Writes.piece {c : Copied} (hmod : r % buffsize = 0) (hr : r < extentBytes env x)
    (hread : devicePos env x r ≤ env.device.fssize)
    (hc : Writes env x (r + pieceBytes (extentBytes env x) r)
      (env.device.fread (devicePos env x r) (pieceBytes (extentBytes env x) r) buffer) c) :
    Writes env x r buffer (c.after (FileInode.piece env x r buffer)) := by
  have hle := pieceBytes_le_buffsize (extentBytes env x) r
  have hbytes : ∀ rest, copiedBytes env (extentFrom env x r ++ rest) buffer
      = (FileInode.piece env x r buffer).puts ++ copiedBytes env
          (extentFrom env x (r + pieceBytes (extentBytes env x) r) ++ rest)
          (env.device.fread (devicePos env x r) (pieceBytes (extentBytes env x) r) buffer) := by
    intro rest
    have hnone : env.device.fread (devicePos env x r) 0 buffer = buffer := by
      funext k
      exact if_neg (fun h => Nat.not_lt_zero k h.1)
    have hpiece := @copiedBytes_piece env x buffer r
      (extentFrom env x (r + pieceBytes (extentBytes env x) r) ++ rest) 0
      (pieceBytes (extentBytes env x) r) hmod (by omega) hread
    rw [hnone, Nat.zero_add, Nat.add_zero] at hpiece
    rw [extentFrom_piece hr, List.append_assoc, hpiece, puts_piece]
  refine ⟨fun hret rest => ?_, fun hraise rest => ?_, ?_⟩
  · rw [hbytes, hc.ret hret, ← List.append_assoc]
    rfl
  · rw [hbytes, hc.raise hraise]
    rfl
  · show c.outcome = .ret () ↔ _
    rw [hc.outcome, extentFrom_piece hr, List.forall_mem_append]
    refine ⟨fun h => ⟨fun q hq => ?_, h⟩, fun h => h.2⟩
    obtain ⟨k, hk, rfl⟩ := List.mem_map.mp hq
    obtain ⟨hlo, hhi⟩ := List.mem_range'_1.mp hk
    obtain ⟨j, rfl⟩ := Nat.exists_eq_add_of_le hlo
    exact (readable_add hmod (by omega)).mpr hread

theorem Writes.of_le (h : extentBytes env x ≤ r) (fuel : ℕ) (buffer : Buffer) :
    Writes env x r buffer (copyPieces env x fuel r buffer) := by
  rw [copyPieces_of_le h]
  refine ⟨fun _ rest => ?_, fun hraise => absurd rfl hraise, ?_⟩
  · rw [extentFrom_of_le h]
    rfl
  · rw [extentFrom_of_le h]
    exact iff_of_true rfl (List.forall_mem_nil _)

theorem Writes.of_beyond (hmod : r % buffsize = 0) (hr : r < extentBytes env x)
    (hread : ¬ devicePos env x r ≤ env.device.fssize) (fuel : ℕ) (buffer : Buffer) :
    Writes env x r buffer (copyPieces env x (fuel + 1) r buffer) := by
  have hfirst : ¬ Readable env (x, r) :=
    mt (readable_add (j := 0) hmod (by decide)).mp hread
  have hcons : ∃ back, extentFrom env x r = (x, r) :: back := by
    obtain ⟨n, hn⟩ := Nat.exists_eq_add_of_lt hr
    rw [extentFrom, show extentBytes env x - r = n + 1 by omega, List.range'_succ]
    exact ⟨_, rfl⟩
  obtain ⟨back, hback⟩ := hcons
  rw [copyPieces_of_beyond hr hread]
  refine ⟨fun hret => ?_, fun _ rest => ?_, ?_⟩
  · cases hret
  · rw [hback, List.cons_append, copiedBytes, if_neg hfirst]
    rfl
  · rw [hback]
    exact iff_of_false (fun h => by cases h) (fun h => hfirst (h _ List.mem_cons_self))

theorem writes_copyPieces (hmod : r % buffsize = 0)
    (hfuel : extentBytes env x < r + fuel * buffsize) :
    Writes env x r buffer (copyPieces env x fuel r buffer) := by
  induction fuel generalizing r buffer with
  | zero => exact Writes.of_le (by omega) 0 buffer
  | succ fuel ih =>
    by_cases hr : r < extentBytes env x
    · by_cases hread : devicePos env x r ≤ env.device.fssize
      · rw [copyPieces_of_within hr hread, ← copyPieces_next hr]
        apply Writes.piece hmod hr hread
        by_cases hfull : extentBytes env x - r > buffsize
        · have hcount : pieceBytes (extentBytes env x) r = buffsize := if_pos hfull
          rw [hcount]
          rw [Nat.succ_mul] at hfuel
          exact ih (by rwa [Nat.add_mod_right]) (by omega)
        · have hcount : pieceBytes (extentBytes env x) r = extentBytes env x - r := if_neg hfull
          exact Writes.of_le (by omega) fuel _
      · exact Writes.of_beyond hmod hr hread fuel buffer
    · exact Writes.of_le (by omega) _ buffer

theorem writes_writeExtentToFile (env : Env) (x : Xad) (buffer : Buffer) :
    Writes env x 0 buffer (writeExtentToFile env x buffer) := by
  have hcopy : Writes env x 0 buffer (copyPieces env x (pieceFuel env x) 0 buffer) :=
    writes_copyPieces (Nat.zero_mod _) pieceFuel_enough
  have hout : (writeExtentToFile env x buffer).outcome
      = (copyPieces env x (pieceFuel env x) 0 buffer).outcome := by
    unfold writeExtentToFile
    dsimp only
    rcases copyPieces_outcome env x (pieceFuel env x) 0 buffer with h | ⟨what, h⟩
    · rw [h]
      rfl
    · rw [h]
      rfl
  refine ⟨fun hret => hcopy.ret (hout.symm.trans hret),
    fun hraise => hcopy.raise (hout ▸ hraise), ?_⟩
  rw [hout]
  exact hcopy.outcome

/-! ### The bytes of a file -/

def AllReadable (env : Env) (xads : List Xad) : Prop := ∀ c ∈ copyOrder env xads, Readable env c

instance (env : Env) (xads : List Xad) : Decidable (AllReadable env xads) :=
  inferInstanceAs (Decidable (∀ c ∈ copyOrder env xads, Readable env c))

/-- **The bytes of the writes** are those of the extents, and the copy returns exactly if all of
them can be read. -/
theorem puts_writeExtents (env : Env) (xads : List Xad) (buffer : Buffer) :
    (writeExtents env xads buffer).writes.flatMap Patch.puts = fileBytes env xads buffer ∧
      ((writeExtents env xads buffer).outcome = .ret () ↔ AllReadable env xads) := by
  induction xads generalizing buffer with
  | nil => exact ⟨rfl, iff_of_true rfl (List.forall_mem_nil _)⟩
  | cons x xs ih =>
    have hx := writes_writeExtentToFile env x buffer
    have horder : copyOrder env (x :: xs) = extentFrom env x 0 ++ copyOrder env xs := rfl
    have hall : AllReadable env (x :: xs) ↔
        (∀ q ∈ extentFrom env x 0, Readable env q) ∧ AllReadable env xs := by
      rw [AllReadable, horder, List.forall_mem_append]
      rfl
    rw [writeExtents, fileBytes, horder, hall, ← hx.outcome]
    dsimp only
    rcases writeExtentToFile_outcome env x buffer with hret | ⟨what, hraise⟩
    · obtain ⟨hbytes, hout⟩ := ih (writeExtentToFile env x buffer).buffer
      rw [hx.ret hret, hret]
      refine ⟨?_, ?_⟩
      · rw [List.flatMap_append, hbytes]
        rfl
      · rw [hout]
        exact (and_iff_right rfl).symm
    · have hne : (writeExtentToFile env x buffer).outcome ≠ .ret () := by
        rw [hraise]
        intro h
        cases h
      rw [hx.raise hne, hraise]
      refine ⟨rfl, ?_⟩
      dsimp only
      rw [hraise]
      exact iff_of_false (fun h => by cases h) (fun h => by cases h.1)

/-! ### The operations on a file -/

/-- The size that the file is cut to, if it comes to that. -/
def cutSize (env : Env) (xads : List Xad) (size : ℤ) : Option ℕ :=
  if AllReadable env xads ∧ 0 ≤ size then some size.toNat else none

/-- The bytes that come to the file when it is closed: those of the last `fwrite` that `stdio` has
not let go early. -/
def lateBytes (env : Env) (xads : List Xad) (buffer : Buffer) (early : ℕ) : List (UInt8 × ℕ) :=
  (fileBytes env xads buffer).drop
    ((fileBytes env xads buffer).length - (lastCount env xads - early))

theorem lateBytes_eq (hall : AllReadable env xads) (buffer : Buffer) (early : ℕ) :
    lateBytes env xads buffer early = (writeExtents env xads buffer).writes.getLast?.elim []
      (fun w => (w.drop early).puts) := by
  obtain ⟨hbytes, hout⟩ := puts_writeExtents env xads buffer
  unfold lateBytes
  rw [← hbytes, ← writeExtents_lastCount (hout.mpr hall)]
  generalize (writeExtents env xads buffer).writes = ws
  cases hw : ws.getLast? with
  | none =>
    obtain rfl := List.getLast?_eq_none_iff.mp hw
    exact List.drop_nil
  | some w =>
    obtain ⟨front, rfl⟩ := List.getLast?_eq_some_iff.mp hw
    have hlen : (w.drop early).puts.length = w.data.length - early := by
      rw [Patch.length_puts, Patch.drop, List.length_drop]
    rw [Option.elim_some, Option.elim_some, List.flatMap_append, List.flatMap_singleton, ← hlen,
      ← w.take_append_drop_puts early, ← List.append_assoc, List.length_append,
      Nat.add_sub_cancel, List.drop_left]

/-- **A file whose extents can be read is written, cut and closed.** -/
theorem truncateAndClose_eq (hall : AllReadable env xads) (early : ℕ) (size : ℤ) :
    ∃ front back, truncateAndClose early (writeExtents env xads buffer).writes size
        = SparseFile.cutBetween front (cutSize env xads size) back ∧
      front.flatMap Patch.puts ++ back.flatMap Patch.puts = fileBytes env xads buffer ∧
      back.flatMap Patch.puts = lateBytes env xads buffer early ∧
      (back.flatMap Patch.puts).Pairwise (fun c e => c.2 < e.2) := by
  have hcut : ftruncate size = (cutSize env xads size).toList.map .truncate := by
    rw [ftruncate, cutSize]
    by_cases hsize : size < 0
    · rw [if_pos hsize, if_neg (by omega)]
      rfl
    · rw [if_neg hsize, if_pos ⟨hall, by omega⟩]
      rfl
  rw [lateBytes_eq hall, truncateAndClose, hcut, ← (puts_writeExtents env xads buffer).1]
  generalize (writeExtents env xads buffer).writes = ws
  cases hw : ws.getLast? with
  | none =>
    obtain rfl := List.getLast?_eq_none_iff.mp hw
    exact ⟨[], [], by simp [SparseFile.cutBetween], rfl, rfl, List.Pairwise.nil⟩
  | some w =>
    obtain ⟨front, rfl⟩ := List.getLast?_eq_some_iff.mp hw
    refine ⟨front ++ [w.take early], [w.drop early], ?_, ?_, List.flatMap_singleton _ _, ?_⟩
    · rw [List.dropLast_concat]
      simp [SparseFile.cutBetween]
    · rw [List.flatMap_append, List.flatMap_append, List.flatMap_singleton, List.flatMap_singleton,
        List.flatMap_singleton, List.append_assoc, w.take_append_drop_puts]
    · rw [List.flatMap_singleton]
      exact (w.drop early).puts_ascending

theorem reach_lateBytes (hall : AllReadable env xads) (buffer : Buffer) (early : ℕ) {size : ℤ}
    (hsize : 0 ≤ size) : (reach (lateBytes env xads buffer early) : ℤ) ≤ size ↔
      lastCount env xads ≤ early ∨ EndsWithin env xads size := by
  have hret := (puts_writeExtents env xads buffer).2.mpr hall
  rw [lateBytes_eq hall, EndsWithin, ← writeExtents_lastCount hret, ← writeExtents_getLast hret]
  cases (writeExtents env xads buffer).writes.getLast? with
  | none => exact iff_of_true hsize (Or.inl (Nat.zero_le _))
  | some w =>
    have hreach : reach (w.drop early).puts
        = if w.data.length ≤ early then 0 else w.stop := by
      rw [Patch.reach_puts, Patch.drop, Patch.stop, List.length_drop]
      dsimp only
      by_cases hle : w.data.length ≤ early
      · rw [if_pos (List.drop_eq_nil_iff.mpr hle), if_pos hle]
      · rw [if_neg (mt List.drop_eq_nil_iff.mp hle), if_neg hle]
        omega
    rw [Option.elim_some, Option.elim_some, Option.map_some, hreach]
    simp only [Option.mem_some, forall_eq']
    by_cases hle : w.data.length ≤ early
    · rw [if_pos hle]
      exact iff_of_true hsize (Or.inl hle)
    · rw [if_neg hle]
      exact (or_iff_right hle).symm

theorem late_iff (hall : AllReadable env xads) (buffer : Buffer) {early k : ℕ} :
    Late env xads early k ↔ ∃ c ∈ lateBytes env xads buffer early, c.2 = k := by
  have hret := (puts_writeExtents env xads buffer).2.mpr hall
  rw [lateBytes_eq hall, Late, ← writeExtents_lastCount hret, ← writeExtents_getLast hret]
  cases (writeExtents env xads buffer).writes.getLast? with
  | none => simp
  | some w =>
    rw [Option.map_some, Option.elim_some, Option.elim_some]
    simp only [Option.mem_some, exists_eq_left', Patch.mem_puts, Patch.drop, Patch.stop,
      List.getElem?_drop]
    constructor
    · rintro ⟨hle, hlt⟩
      have hin : early + (k - w.pos - early) < w.data.length := by omega
      exact ⟨(w.data[early + (k - w.pos - early)], k), ⟨k - w.pos - early, by dsimp only; omega,
        List.getElem?_eq_getElem hin⟩, rfl⟩
    · rintro ⟨c, ⟨i, hi, hget⟩, rfl⟩
      obtain ⟨hlt, _⟩ := List.getElem?_eq_some_iff.mp hget
      omega

/-! ### Extents that the device holds -/

theorem copiedBytes_of_inside {l : List (Xad × ℕ)} (hread : ∀ c ∈ l, Readable env c)
    (hin : ∀ c ∈ l, devicePos env c.1 c.2 < env.device.stSize) (buffer : Buffer) :
    copiedBytes env l buffer
      = l.map (fun c => (env.device.data (devicePos env c.1 c.2), filePos env c.1 c.2)) := by
  induction l generalizing buffer with
  | nil => rfl
  | cons c l ih =>
    obtain ⟨hc, hread⟩ := List.forall_mem_cons.mp hread
    obtain ⟨hpos, hin⟩ := List.forall_mem_cons.mp hin
    rw [copiedBytes, if_pos hc, ih hread hin, List.map_cons, received, if_pos hpos,
      Function.update_self]

theorem mem_extentFrom {c : Xad × ℕ} :
    c ∈ extentFrom env x 0 ↔ c.1 = x ∧ c.2 < extentBytes env x := by
  obtain ⟨y, q⟩ := c
  rw [extentFrom, List.mem_map]
  constructor
  · rintro ⟨k, hk, heq⟩
    obtain ⟨rfl, rfl⟩ := Prod.mk.inj heq
    have hlt := (List.mem_range'_1.mp hk).2
    rw [Nat.sub_zero, Nat.zero_add] at hlt
    exact ⟨rfl, hlt⟩
  · rintro ⟨rfl, hlt⟩
    refine ⟨q, List.mem_range'_1.mpr ⟨Nat.zero_le _, ?_⟩, rfl⟩
    rw [Nat.sub_zero, Nat.zero_add]
    exact hlt

theorem mem_copyOrder {c : Xad × ℕ} :
    c ∈ copyOrder env xads ↔ c.1 ∈ xads ∧ c.2 < extentBytes env c.1 := by
  rw [copyOrder, List.mem_flatMap]
  constructor
  · rintro ⟨y, hy, hc⟩
    obtain ⟨rfl, hlt⟩ := mem_extentFrom.mp hc
    exact ⟨hy, hlt⟩
  · rintro ⟨hx, hlt⟩
    exact ⟨c.1, hx, mem_extentFrom.mpr ⟨rfl, hlt⟩⟩

theorem Whole.readable (h : Whole env x) {q : ℕ} (hq : q < extentBytes env x) :
    Readable env (x, q) :=
  (h.piece_within (Nat.mul_mod_left _ _) (Nat.lt_of_le_of_lt (Nat.div_mul_le_self _ _) hq)).1

theorem Whole.devicePos_lt (h : Whole env x) {q : ℕ} (hq : q < extentBytes env x) :
    devicePos env x q < env.device.stSize := by
  have hin := h.inside
  rw [h.extentBytes_eq] at hq
  rw [Nat.add_mul] at hin
  unfold devicePos
  omega

theorem allReadable_of_whole (h : ∀ x ∈ xads, Whole env x) : AllReadable env xads := by
  intro c hc
  obtain ⟨hx, hlt⟩ := mem_copyOrder.mp hc
  exact (h _ hx).readable hlt

theorem fileBytes_of_whole (h : ∀ x ∈ xads, Whole env x) (buffer : Buffer) :
    fileBytes env xads buffer = (copyOrder env xads).map
      (fun c => (env.device.data (devicePos env c.1 c.2), filePos env c.1 c.2)) := by
  apply copiedBytes_of_inside (allReadable_of_whole h)
  intro c hc
  obtain ⟨hx, hlt⟩ := mem_copyOrder.mp hc
  exact (h _ hx).devicePos_lt hlt

/-- Extents that do not overlap put every byte at a position of its own. -/
theorem WellPlaced.positions (h : WellPlaced env xads) :
    (copyOrder env xads).Pairwise (fun c e => filePos env c.1 c.2 ≠ filePos env e.1 e.2) := by
  rw [copyOrder, List.pairwise_flatMap]
  refine ⟨fun x _ => ?_, h.disjoint.imp_of_mem (fun {x y} hx hy hxy c hc e he heq => ?_)⟩
  · rw [extentFrom, List.pairwise_map]
    refine (List.pairwise_lt_range').imp (fun {q r} hlt heq => ?_)
    unfold filePos at heq
    dsimp only at heq
    omega
  · obtain ⟨rfl, hcl⟩ := mem_extentFrom.mp hc
    obtain ⟨rfl, hel⟩ := mem_extentFrom.mp he
    rw [(h.whole _ hx).extentBytes_eq] at hcl
    rw [(h.whole _ hy).extentBytes_eq] at hel
    have hcin := contains_filePos hcl
    rw [heq] at hcin
    exact hxy _ hcin (contains_filePos hel)

theorem WellPlaced.fileBytes_pairwise (h : WellPlaced env xads) (buffer : Buffer) :
    (fileBytes env xads buffer).Pairwise (fun c e => c.2 ≠ e.2) := by
  rw [fileBytes_of_whole h.whole, List.pairwise_map]
  exact h.positions

/-! ### What is in the saved file -/

section Saved

variable {early k : ℕ} {size : ℤ} (h : WellPlaced env xads) (hsize : 0 ≤ size)
include h hsize

theorem WellPlaced.byte_saved_eq (buffer : Buffer) (early k : ℕ) : (SparseFile.empty.run
    (truncateAndClose early (writeExtents env xads buffer).writes size)).byte k
      = held (if (k : ℤ) < size then fileBytes env xads buffer
          else lateBytes env xads buffer early) k := by
  have hall := allReadable_of_whole h.whole
  obtain ⟨front, back, heq, hputs, hlate, -⟩ := @truncateAndClose_eq env xads buffer hall early size
  have hcut : cutSize env xads size = some size.toNat := if_pos ⟨hall, hsize⟩
  rw [heq, hcut, (SparseFile.run_cut front back _).2, hputs, hlate, SparseFile.heldLeft]
  congr 1
  exact if_congr (by omega) rfl rfl

/-- **The bytes of the extents are in the saved file**, below the size, and where `stdio` writes
them behind it. -/
theorem WellPlaced.byte_saved (buffer : Buffer) (hx : x ∈ xads) (hk : Contains env x k)
    (hput : (k : ℤ) < size ∨ Late env xads early k) : (SparseFile.empty.run
      (truncateAndClose early (writeExtents env xads buffer).writes size)).byte k
        = env.device.data (sourcePos env x k) := by
  have hbytes := fileBytes_of_whole h.whole buffer
  have hpairs := h.fileBytes_pairwise buffer
  have hheld : held (fileBytes env xads buffer) k = env.device.data (sourcePos env x k) := by
    obtain ⟨r, hr, rfl⟩ := hk.exists_filePos
    rw [← (h.whole x hx).extentBytes_eq] at hr
    rw [sourcePos_filePos]
    refine held_of_mem (c := (env.device.data (devicePos env x r), filePos env x r)) hpairs ?_
    rw [hbytes]
    exact List.mem_map.mpr ⟨(x, r), mem_copyOrder.mpr ⟨hx, hr⟩, rfl⟩
  rw [h.byte_saved_eq hsize]
  split
  · exact hheld
  · rename_i hbehind
    obtain ⟨c, hc, rfl⟩ := (late_iff (allReadable_of_whole h.whole) buffer).mp
      (hput.resolve_left hbehind)
    have hsuffix : lateBytes env xads buffer early <:+ fileBytes env xads buffer :=
      List.drop_suffix _ _
    rw [← hheld, held_of_mem hpairs (hsuffix.mem hc),
      held_of_mem (hpairs.sublist hsuffix.sublist) hc]

/-- Everywhere else there are zeros. -/
theorem WellPlaced.byte_saved_zero (buffer : Buffer)
    (hnone : (k : ℤ) < size → ∀ x ∈ xads, ¬ Contains env x k)
    (hlate : ¬ Late env xads early k) : (SparseFile.empty.run
      (truncateAndClose early (writeExtents env xads buffer).writes size)).byte k = 0 := by
  rw [h.byte_saved_eq hsize]
  apply held_of_forall_ne
  split
  · rename_i hlt
    rw [fileBytes_of_whole h.whole]
    intro c hc heq
    obtain ⟨e, he, rfl⟩ := List.mem_map.mp hc
    obtain ⟨hx, hr⟩ := mem_copyOrder.mp he
    rw [(h.whole _ hx).extentBytes_eq] at hr
    exact hnone hlt _ hx (heq ▸ contains_filePos hr)
  · intro c hc heq
    exact hlate ((late_iff (allReadable_of_whole h.whole) buffer).mpr ⟨c, hc, heq⟩)

end Saved

/-- What is missing when the first `m` bytes have been copied are zeros below the size.  If the
file has been cut, nothing else is missing; if not, what has been copied ends with the size, and no
byte comes behind it when the file is closed. -/
def OnlyZerosMissing (env : Env) (xads : List Xad) (size : ℤ) (early m : ℕ) (isCut : Bool) :
    Prop :=
  (∀ c ∈ (copyOrder env xads).drop m, (filePos env c.1 c.2 : ℤ) < size →
    env.device.data (devicePos env c.1 c.2) = 0) ∧
  if isCut then ∀ c ∈ (copyOrder env xads).drop m, (filePos env c.1 c.2 : ℤ) < size
  else (∀ n : ℕ, size ≤ n ↔ ∀ c ∈ (copyOrder env xads).take m, filePos env c.1 c.2 < n) ∧
    (lastCount env xads ≤ early ∨ EndsWithin env xads size)

/-- **In a file whose extents lie in the device and do not overlap, only zeros may be missing.** -/
theorem WellPlaced.lacksNothing_iff (h : WellPlaced env xads) {size : ℤ} (hsize : 0 ≤ size)
    {early m : ℕ} {isCut : Bool} (hlate : isCut = false →
      lateBytes env xads buffer early <:+ (fileBytes env xads buffer).drop m) :
    SparseFile.LacksNothing (cutSize env xads size) (fileBytes env xads buffer)
        (lateBytes env xads buffer early) m isCut ↔
      OnlyZerosMissing env xads size early m isCut := by
  have hall := allReadable_of_whole h.whole
  have hbytes := fileBytes_of_whole h.whole buffer
  have hpairs := h.fileBytes_pairwise buffer
  have hlast := reach_lateBytes hall buffer early hsize
  obtain ⟨s, rfl⟩ := Int.eq_ofNat_of_zero_le hsize
  have hreach : ∀ l : List (UInt8 × ℕ), reach l = s ↔ ∀ n : ℕ, (s : ℤ) ≤ n ↔ ∀ c ∈ l, c.2 < n := by
    intro l
    simp only [← reach_le_iff, Int.ofNat_le]
    exact ⟨fun h n => by rw [h], fun h => eq_of_forall_ge_iff (fun n => (h n).symm)⟩
  rw [cutSize, if_pos ⟨hall, hsize⟩, SparseFile.lacksNothing_iff hpairs hlate, OnlyZerosMissing,
    ← hlast, Int.toNat_natCast, hreach, hbytes, ← List.map_drop, ← List.map_take]
  simp only [List.forall_mem_map, Int.ofNat_lt, Int.ofNat_le]

end FileInode

end Jfsrec
