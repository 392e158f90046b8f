import Jfsrec.Direntry
import Mathlib.Data.List.TakeWhile

/-!
# What the name buffer keeps

`get_direntry` allocates a buffer for `namlen` characters and fills it from the
head slot and the slots that follow, which may be fewer than the name needs.
`text_getDirentry` says what is converted in the end, for every page: the
characters of the slots, and behind them whatever the buffer held, up to the
first zero.  So the name depends on the disk alone exactly if the slots hold
enough characters or one of them is zero, `name_of_disk_iff`.

A name that is laid out as the format has it is read back, `getDirentry_decodes`.
-/

namespace Jfsrec

/-! ### What the slots hold -/

def slotChain (m : Memory) (slot : ℤ) : ℕ → List ℤ → ℤ → List ℤ
  | 0, _, _ => []
  | fuel + 1, visited, next =>
      if next < 0 then []
      else if int8 (m (slot + 32 * next)) ∈ visited ++ [next] then [next]
      else next :: slotChain m slot fuel (visited ++ [next]) (int8 (m (slot + 32 * next)))

def chainOf (m : Memory) (slot : ℤ) (headIndex : ℕ) : List ℤ :=
  slotChain m slot slotFuel [] (int8 (m (slot + 32 * headIndex + 4)))

def headChars (m : Memory) (slot : ℤ) (headIndex : ℕ) : List UniChar :=
  (List.range 11).map (fun j : ℕ => uniCharAt m (slot + 32 * headIndex + 6 + 2 * j))

def slotChars (m : Memory) (slot k : ℤ) : List UniChar :=
  (List.range 15).map (fun j : ℕ => uniCharAt m (slot + 32 * k + 2 + 2 * j))

def heldChars (m : Memory) (slot : ℤ) (headIndex : ℕ) : List UniChar :=
  headChars m slot headIndex ++ (chainOf m slot headIndex).flatMap (slotChars m slot)

def namlen (m : Memory) (slot : ℤ) (headIndex : ℕ) : ℕ := (m (slot + 32 * headIndex + 5)).toNat

/-- The slots of an entry hold as many characters as its name has, or a zero. -/
def NameSupplied (m : Memory) (slot : ℤ) (headIndex : ℕ) : Prop :=
  namlen m slot headIndex ≤ (heldChars m slot headIndex).length ∨ 0 ∈ heldChars m slot headIndex

/-! ### Text -/

def textOf (cs : List UniChar) : List UniChar := cs.takeWhile (· ≠ 0)

section Text

variable {a b c d : List UniChar}

theorem textOf_of_nul_notMem (h : 0 ∉ a) : textOf a = a := by
  refine List.takeWhile_eq_self_iff.mpr (fun x hx => ?_)
  simpa using fun h0 : x = 0 => h (h0 ▸ hx)

theorem textOf_append_of_mem (h : 0 ∈ a) : textOf (a ++ b) = textOf a := by
  induction a with
  | nil => cases h
  | cons x a ih =>
    rw [List.cons_append, textOf, textOf, List.takeWhile_cons, List.takeWhile_cons]
    by_cases hx : x = 0
    · simp [hx]
    · have ha : 0 ∈ a := (List.mem_cons.mp h).resolve_left (fun h0 => hx h0.symm)
      rw [if_pos (by simpa using hx), if_pos (by simpa using hx)]
      exact congrArg (x :: ·) (ih ha)

theorem textOf_append_of_notMem (h : 0 ∉ a) : textOf (a ++ b) = a ++ textOf b := by
  induction a with
  | nil => rfl
  | cons x a ih =>
    rw [List.mem_cons, not_or] at h
    rw [List.cons_append, textOf, List.takeWhile_cons, if_pos (by simpa using Ne.symm h.1)]
    exact congrArg (x :: ·) (ih h.2)

theorem length_textOf_iff : (textOf a).length = a.length ↔ 0 ∉ a := by
  refine ⟨fun h h0 => ?_, fun h => by rw [textOf_of_nul_notMem h]⟩
  have hself : textOf a = a := (List.takeWhile_prefix _).eq_of_length h
  rw [← hself] at h0
  have hne := List.mem_takeWhile_imp h0
  simp at hne

theorem textOf_append_congr (hlen : a.length = b.length) (h : textOf a = textOf b)
    (h' : textOf c = textOf d) : textOf (a ++ c) = textOf (b ++ d) := by
  have hmem : 0 ∉ a ↔ 0 ∉ b := by rw [← length_textOf_iff, ← length_textOf_iff, h, hlen]
  by_cases ha : 0 ∈ a
  · have hb : 0 ∈ b := by
      by_contra hb
      exact hmem.mpr hb ha
    rw [textOf_append_of_mem ha, textOf_append_of_mem hb, h]
  · have hb : 0 ∉ b := hmem.mp ha
    rw [textOf_of_nul_notMem ha, textOf_of_nul_notMem hb] at h
    rw [textOf_append_of_notMem ha, textOf_append_of_notMem hb, h, h']

theorem textOf_padded (u : ℕ → UniChar) (len : ℕ) :
    textOf ((List.range len).map (padded u)) = textOf ((List.range len).map u) := by
  induction len with
  | zero => rfl
  | succ len ih =>
    rw [List.range_succ, List.map_append, List.map_append]
    by_cases hz : ∃ i < len, u i = 0
    · obtain ⟨i, hi, h0⟩ := hz
      have hpad : padded u i = 0 := if_neg (fun h => h i (Nat.le_refl i) h0)
      rw [textOf_append_of_mem (List.mem_map.mpr ⟨i, List.mem_range.mpr hi, hpad⟩),
        textOf_append_of_mem (List.mem_map.mpr ⟨i, List.mem_range.mpr hi, h0⟩), ih]
    · have hlast : padded u len = u len := by
        by_cases h0 : u len = 0
        · rw [padded, if_neg (fun h => h len (Nat.le_refl len) h0), h0]
        · refine padded_of_ne (fun i hi => ?_)
          by_cases hil : i = len
          · rw [hil]
            exact h0
          · exact fun hi0 => hz ⟨i, by omega, hi0⟩
      refine textOf_append_congr (by simp) ih ?_
      rw [List.map_singleton, List.map_singleton, hlast]

end Text

/-! ### Filling the buffer -/

/-- The first `n` of `total` characters of a buffer read as `held`; behind them the
buffer is as it was. -/
structure Filled (total : ℕ) (fresh : ℕ → UniChar) (held : List UniChar) (n : ℕ)
    (name : ℕ → UniChar) : Prop where
  n_eq : n = min total held.length
  text : textOf ((List.range n).map name) = textOf (held.take total)
  rest : ∀ k, n ≤ k → k < total → name k = fresh k

section Filled

variable {total n : ℕ} {fresh name : ℕ → UniChar} {held : List UniChar}

theorem map_uniStrncpy (name u : ℕ → UniChar) (n len : ℕ) :
    (List.range (n + len)).map (uniStrncpy name n u len)
      = (List.range n).map name ++ (List.range len).map (padded u) := by
  rw [List.range_add, List.map_append, List.map_map]
  congr 1
  · refine List.map_congr_left (fun k hk => ?_)
    exact if_neg (fun h => Nat.not_le.mpr (List.mem_range.mp hk) h.1)
  · refine List.map_congr_left (fun j hj => ?_)
    have hlt := List.mem_range.mp hj
    show uniStrncpy name n u len (n + j) = padded u j
    rw [uniStrncpy, if_pos ⟨by omega, by omega⟩, Nat.add_sub_cancel_left]

theorem Filled.copy (h : Filled total fresh held n name) (u : ℕ → UniChar) (c : ℕ) :
    Filled total fresh (held ++ (List.range c).map u) (n + min (total - n) c)
      (uniStrncpy name n u (min (total - n) c)) := by
  have hn := h.n_eq
  refine ⟨?_, ?_, fun k hk hkt => ?_⟩
  · rw [List.length_append, List.length_map, List.length_range]
    omega
  · have htake : ((List.range c).map u).take (total - held.length)
        = (List.range (min (total - n) c)).map u := by
      rw [← List.map_take, List.take_range, show min (total - held.length) c
        = min (total - n) c by omega]
    rw [map_uniStrncpy, List.take_append, htake]
    refine textOf_append_congr ?_ h.text (textOf_padded u _)
    rw [List.length_map, List.length_range, List.length_take, hn]
  · have hname : uniStrncpy name n u (min (total - n) c) k = name k :=
      if_neg (fun hlt => by omega)
    rw [hname]
    exact h.rest k (by omega) hkt

/-- **The loop fills the buffer from the slots it passes through.** -/
theorem slotLoop_filled {m : Memory} {slot : ℤ} (fuel : ℕ) : ∀ {s : SlotLoop}
    {held : List UniChar}, Filled total fresh held s.n s.name →
      s.namlen - s.len = (total : ℤ) - s.n →
      ∃ n, Filled total fresh
        (held ++ (slotChain m slot fuel s.visited s.next).flatMap (slotChars m slot)) n
        (slotLoop m slot fuel s).name := by
  induction fuel with
  | zero =>
    intro s held h _
    exact ⟨s.n, by simpa [slotChain, slotLoop] using h⟩
  | succ fuel ih =>
    intro s held h hleft
    rw [slotLoop, slotChain]
    by_cases h0 : s.next < 0
    · rw [if_pos h0, if_pos h0]
      exact ⟨s.n, by simpa using h⟩
    · have hn := h.n_eq
      have hlen : (min (s.namlen - s.len) 15).toNat = min (total - s.n) 15 := by omega
      have hcopy := h.copy (fun j => uniCharAt m (slot + 32 * s.next + 2 + 2 * j)) 15
      rw [if_neg h0, if_neg h0]
      dsimp only
      rw [hlen]
      by_cases hin : int8 (m (slot + 32 * s.next)) ∈ s.visited ++ [s.next]
      · rw [if_pos hin, if_pos hin]
        exact ⟨_, by simpa [slotChars] using hcopy⟩
      · rw [if_neg hin, if_neg hin]
        obtain ⟨n, hfill⟩ := ih (s := ⟨s.namlen - s.len, min (s.namlen - s.len) 15,
          int8 (m (slot + 32 * s.next)), s.visited ++ [s.next], s.n + min (total - s.n) 15, _⟩)
          hcopy (by dsimp only; omega)
        refine ⟨n, ?_⟩
        rw [List.flatMap_cons, ← List.append_assoc]
        exact hfill

theorem Filled.text_range (h : Filled total fresh held n name) :
    textOf ((List.range total).map name) = textOf (held.take total ++
      (List.range (total - held.length)).map (fun j => fresh (held.length + j))) := by
  have hn := h.n_eq
  have hsplit : total = n + (total - held.length) := by omega
  have hrange : (List.range total).map name = (List.range n).map name ++
      (List.range (total - held.length)).map (fun j => fresh (held.length + j)) := by
    rw [hsplit, List.range_add, List.map_append, List.map_map, ← hsplit]
    refine congrArg (_ ++ ·) (List.map_congr_left (fun j hj => ?_))
    have hlt := List.mem_range.mp hj
    have hnl : n = held.length := by omega
    show name (n + j) = fresh (held.length + j)
    rw [hnl]
    exact h.rest (held.length + j) (by omega) (by omega)
  rw [hrange]
  refine textOf_append_congr ?_ h.text rfl
  rw [List.length_map, List.length_range, List.length_take, hn]

end Filled

/-- **What an entry is read as**, whatever the page holds. -/
theorem text_getDirentry (m : Memory) (slot : ℤ) (headIndex : ℕ) (name : ℕ → UniChar) :
    (getDirentry m slot headIndex name).name.text
      = textOf ((heldChars m slot headIndex).take (namlen m slot headIndex) ++
          (List.range (namlen m slot headIndex - (heldChars m slot headIndex).length)).map
            (fun j => name ((heldChars m slot headIndex).length + j))) := by
  have hempty : Filled (namlen m slot headIndex) name [] 0
      (Function.update name (namlen m slot headIndex) 0) :=
    ⟨by simp, by simp, fun k _ hk => Function.update_of_ne (by omega) _ _⟩
  have hhead := hempty.copy (fun j => uniCharAt m (slot + 32 * headIndex + 6 + 2 * j)) 11
  rw [Nat.zero_add, Nat.sub_zero, List.nil_append] at hhead
  have hleft : (startLoop m (slot + 32 * headIndex) name).namlen
      - (startLoop m (slot + 32 * headIndex) name).len = (namlen m slot headIndex : ℤ)
        - (startLoop m (slot + 32 * headIndex) name).n := rfl
  obtain ⟨n, hfill⟩ := slotLoop_filled slotFuel hhead hleft
  exact hfill.text_range

/-! ### Names that depend on the disk alone -/

theorem flatMap_utf8_ne_nil {cs : List UniChar} (h : cs ≠ []) : cs.flatMap utf8 ≠ [] := by
  obtain ⟨c, cs, rfl⟩ := List.exists_cons_of_ne_nil h
  rw [List.flatMap_cons]
  exact List.append_ne_nil_of_left_ne_nil (utf8_ne_nil c) _

theorem toUtf8_ne_of_append {a b : UniName} {cs : List UniChar} (h : b.text = a.text ++ cs)
    (hcs : cs ≠ []) : a.toUtf8 ≠ b.toUtf8 := by
  rw [UniName.toUtf8_eq, UniName.toUtf8_eq, h, List.flatMap_append, List.map_append]
  intro heq
  have hnil := List.self_eq_append_right.mp heq
  exact flatMap_utf8_ne_nil hcs (List.map_eq_nil_iff.mp hnil)

/-- **The name depends on the disk alone**, whatever memory was allocated, exactly if
the slots supply it. -/
theorem name_of_disk_iff (m : Memory) (slot : ℤ) (headIndex : ℕ) :
    (∀ name name', (getDirentry m slot headIndex name).inodeName
        = (getDirentry m slot headIndex name').inodeName) ↔ NameSupplied m slot headIndex := by
  refine ⟨fun h => ?_, ?_⟩
  · by_contra hns
    rw [NameSupplied, not_or, Nat.not_le] at hns
    obtain ⟨hlen, hnul⟩ := hns
    have htake : (heldChars m slot headIndex).take (namlen m slot headIndex)
        = heldChars m slot headIndex := List.take_of_length_le (by omega)
    -- a buffer of zeros ends the name, and one of other characters goes on with it
    have hzero := text_getDirentry m slot headIndex (fun _ => 0)
    have hone := text_getDirentry m slot headIndex (fun _ => 1)
    rw [htake, textOf_append_of_notMem hnul] at hzero hone
    obtain ⟨k, hk⟩ : ∃ k, namlen m slot headIndex - (heldChars m slot headIndex).length = k + 1 :=
      ⟨namlen m slot headIndex - (heldChars m slot headIndex).length - 1, by omega⟩
    rw [hk, List.map_const', List.length_range, List.replicate_succ] at hzero hone
    have hz : textOf ((0 : UniChar) :: List.replicate k 0) = [] := rfl
    rw [hz, List.append_nil] at hzero
    rw [← hzero] at hone
    have hne : textOf ((1 : UniChar) :: List.replicate k 1) ≠ [] := List.cons_ne_nil _ _
    exact toUtf8_ne_of_append hone hne (congrArg InodeName.name (h (fun _ => 0) (fun _ => 1)))
  · intro hsup name name'
    have htext : (getDirentry m slot headIndex name).name.text
        = (getDirentry m slot headIndex name').name.text := by
      rw [text_getDirentry, text_getDirentry]
      by_cases hlen : namlen m slot headIndex ≤ (heldChars m slot headIndex).length
      · rw [Nat.sub_eq_zero_of_le hlen, List.range_zero, List.map_nil, List.map_nil]
      · have hmem : 0 ∈ (heldChars m slot headIndex).take (namlen m slot headIndex) := by
          rw [List.take_of_length_le (by omega)]
          exact hsup.resolve_left hlen
        rw [textOf_append_of_mem hmem, textOf_append_of_mem hmem]
    have hname : (getDirentry m slot headIndex name).name.toUtf8
        = (getDirentry m slot headIndex name').name.toUtf8 := by
      rw [UniName.toUtf8_eq, UniName.toUtf8_eq, htext]
    exact congrArg (fun n => (⟨n, leAt m (slot + 32 * headIndex) 4⟩ : InodeName)) hname

/-- A page whose entry in slot 1 has a name of twelve characters and no second slot. -/
def shortChain : Memory := fun z =>
  if z = 36 then 0xFF else if z = 37 then 12 else if 38 ≤ z ∧ z < 60 then 0x61 else 0

/-- **Two allocations, two names.** -/
theorem not_name_of_disk_shortChain :
    (getDirentry shortChain 0 1 (fun _ => 0)).inodeName
      ≠ (getDirentry shortChain 0 1 (fun _ => 0x62)).inodeName := by decide +kernel

/-! ### Decoding -/

/-- **Decoding undoes the encoding.**  An entry that is laid out as the format has it
is returned with its inode number, and with its name in UTF-8. -/
theorem getDirentry_decodes {m : Memory} {slot : ℤ} {slots head : ℕ} {e : DirEntry}
    (he : Stored m slot slots head e) (hslots : slots ≤ 128) (name : ℕ → UniChar) :
    (getDirentry m slot head name).inodeName
      = ⟨(e.name.chars.flatMap utf8).map byteChar, e.inumber⟩ := by
  have htext : e.name.text = e.name.chars := textOf_of_nul_notMem he.nul
  rw [getDirentry_of_stored he hslots, DirEntry.inodeName, UniName.toUtf8_eq, htext]

/-- A page whose entry in slot 1 has the last of its twelve characters in slot 2. -/
def twoSlots : Memory := fun z =>
  if z = 32 then 7 else if z = 36 then 2 else if z = 37 then 12
  else if 38 ≤ z ∧ z < 60 then if z % 2 = 0 then 0x61 else 0
  else if z = 64 then 0xFF else if z = 66 then 0x62 else 0

def twelveChars : DirEntry := ⟨⟨List.replicate 11 0x61 ++ [0x62], by decide⟩, 7⟩

theorem stored_twelveChars : Stored twoSlots 0 128 1 twelveChars where
  nul := by decide
  head_lt := by decide
  inumber := by decide
  namlen := by decide
  char := by
    have hall : ∀ j : ℕ, j < 11 → twelveChars.name.chars[j]?
        = some (uniCharAt twoSlots (0 + 32 * (1 : ℕ) + 6 + 2 * j)) := by decide +kernel
    intro j hj c hc
    rw [hall j hj] at hc
    exact Option.some.inj hc
  rest := by
    refine ⟨[2], by decide, by decide, ⟨by decide, ?_⟩, ?_, by decide⟩
    · show int8 _ < 0
      decide
    · intro i k hk j _ c hc
      cases i with
      | zero =>
        obtain rfl : 2 = k := Option.some.inj hk
        cases j with
        | zero =>
          obtain rfl : (0x62 : UniChar) = c := Option.some.inj hc
          decide
        | succ j => cases hc
      | succ i => cases hk

theorem getDirentry_decodes_twelveChars : (getDirentry twoSlots 0 1 (fun _ => 0)).inodeName
    = ⟨"aaaaaaaaaaab".toList, 7⟩ := getDirentry_decodes stored_twelveChars (by decide) _

end Jfsrec
