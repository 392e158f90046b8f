import Jfsrec.Memory
import Jfsrec.Recoverer
import Jfsrec.Unicode

/-!
# Directory entries

`DirInode::get_direntry` of `dirinode.cpp`.  A directory page, and the root in
an inode, is an array of 32-byte slots.  An entry starts in a head slot and its
name may go on in other slots, each of which has the number of the next one.
The numbers come from the disk and are followed wherever they point to, so an
entry is read from a `Memory`: the bytes of the page, and around it whatever
lies there.

`getDirentry_of_stored` says that an entry laid out as the format has it is read
back, whatever the allocated name buffer held before.
-/

namespace Jfsrec

/-! ### get_direntry -/

def uniCharAt (m : Memory) (p : ℤ) : UniChar := UInt16.ofNat (leAt m p 2)

theorem AgreeOn.uniCharAt {size : ℕ} {m m' : Memory} (h : AgreeOn size m m') {p : ℤ} (h0 : 0 ≤ p)
    (hp : p + 2 ≤ size) : uniCharAt m p = uniCharAt m' p := by
  rw [Jfsrec.uniCharAt, Jfsrec.uniCharAt, h.leAt h0 hp]

/-- An entry as it is read: `InodeName` before the conversion of the name. -/
structure DirEntry where
  name : UniName
  inumber : ℕ
deriving DecidableEq

def DirEntry.inodeName (e : DirEntry) : InodeName := ⟨e.name.toUtf8, e.inumber⟩

/-- What the second argument of `UniStrncpy` supplies: its characters up to the first
zero, and zeros. -/
def padded (ucs2 : ℕ → UniChar) (j : ℕ) : UniChar := if ∀ i ≤ j, ucs2 i ≠ 0 then ucs2 j else 0

/-- `UniStrncpy(name + n, ucs2, len)` -/
def uniStrncpy (name : ℕ → UniChar) (n : ℕ) (ucs2 : ℕ → UniChar) (len : ℕ) : ℕ → UniChar :=
  fun k => if n ≤ k ∧ k < n + len then padded ucs2 (k - n) else name k

/-- The variables of the loop over the slots; `visited` is its `rec`, and `n` counts
from the start of `name`. -/
structure SlotLoop where
  namlen : ℤ
  len : ℤ
  next : ℤ
  visited : List ℤ
  n : ℕ
  name : ℕ → UniChar

def slotLoop (m : Memory) (slot : ℤ) : ℕ → SlotLoop → SlotLoop
  | 0, s => s
  | fuel + 1, s =>
      if s.next < 0 then s
      else
        let visited := s.visited ++ [s.next]
        let p := slot + 32 * s.next
        let namlen := s.namlen - s.len
        let len := min namlen 15
        let name := uniStrncpy s.name s.n (fun j => uniCharAt m (p + 2 + 2 * j)) len.toNat
        let next := int8 (m p)
        -- recurrent slot parsing
        if next ∈ visited then ⟨namlen, len, next, visited, s.n, name⟩
        else slotLoop m slot fuel ⟨namlen, len, next, visited, s.n + len.toNat, name⟩

def slotFuel : ℕ := 129

def startLoop (m : Memory) (entry : ℤ) (name : ℕ → UniChar) : SlotLoop :=
  let namlen := (m (entry + 5)).toNat
  let len := min namlen 11
  { namlen := namlen
    len := len
    next := int8 (m (entry + 4))
    visited := []
    n := len
    name := uniStrncpy (Function.update name namlen 0) 0
      (fun j => uniCharAt m (entry + 6 + 2 * j)) len }

/-- `get_direntry`, where the allocated buffer held `name`. -/
def getDirentry (m : Memory) (slot : ℤ) (headIndex : ℕ) (name : ℕ → UniChar) : DirEntry :=
  let entry := slot + 32 * headIndex
  let s := slotLoop m slot slotFuel (startLoop m entry name)
  { name :=
      { chars := (List.range (m (entry + 5)).toNat).map s.name
        length_le := by
          rw [List.length_map, List.length_range]
          exact Nat.le_of_lt_succ (m (entry + 5)).toNat_lt }
    inumber := leAt m entry 4 }

/-! ### The loop over the slots -/

section SlotLoop

variable {m m' : Memory} {slot : ℤ} {s : SlotLoop}

/-- What `slot` holds is not more than the slot numbers. -/
structure SlotLoop.Bounded (s : SlotLoop) : Prop where
  nodup : s.visited.Nodup
  range : ∀ k ∈ s.visited, 0 ≤ k ∧ k < 128
  next_lt : s.next < 128
  fresh : s.next ∉ s.visited

theorem SlotLoop.Bounded.length_le (h : s.Bounded) : s.visited.length ≤ 128 := by
  have hnodup : (s.visited.map Int.toNat).Nodup := by
    refine h.nodup.map_on (fun a ha b hb hab => ?_)
    have ha' := h.range a ha
    have hb' := h.range b hb
    omega
  have hsub : s.visited.map Int.toNat ⊆ List.range 128 := by
    intro k hk
    obtain ⟨a, ha, rfl⟩ := List.mem_map.mp hk
    have ha' := h.range a ha
    exact List.mem_range.mpr (by omega)
  have hle := (hnodup.subperm hsub).length_le
  rwa [List.length_map, List.length_range] at hle

theorem SlotLoop.Bounded.push (h : s.Bounded) (h0 : ¬ s.next < 0) {next : ℤ}
    (hnext : next < 128) (hf : next ∉ s.visited ++ [s.next]) (namlen len : ℤ) (n : ℕ)
    (name : ℕ → UniChar) :
    SlotLoop.Bounded ⟨namlen, len, next, s.visited ++ [s.next], n, name⟩ where
  nodup := List.nodup_append.mpr ⟨h.nodup, List.nodup_singleton _, by
    rintro a ha b hb rfl
    rw [List.mem_singleton.mp hb] at ha
    exact h.fresh ha⟩
  range k hk := by
    rcases List.mem_append.mp hk with hk | hk
    · exact h.range k hk
    · rw [List.mem_singleton.mp hk]
      exact ⟨not_lt.mp h0, h.next_lt⟩
  next_lt := hnext
  fresh := hf

/-- **The loop ends** by itself: more fuel makes no difference. -/
theorem slotLoop_fuel {fuel fuel' : ℕ} (h : s.Bounded) (hf : 129 ≤ fuel + s.visited.length)
    (hf' : fuel ≤ fuel') : slotLoop m slot fuel' s = slotLoop m slot fuel s := by
  induction fuel generalizing fuel' s with
  | zero =>
    have hle := h.length_le
    omega
  | succ fuel ih =>
    obtain ⟨fuel', rfl⟩ : ∃ k, fuel' = k + 1 := ⟨fuel' - 1, by omega⟩
    rw [slotLoop, slotLoop]
    by_cases h0 : s.next < 0
    · rw [if_pos h0, if_pos h0]
    · rw [if_neg h0, if_neg h0]
      dsimp only
      by_cases hin : int8 (m (slot + 32 * s.next)) ∈ s.visited ++ [s.next]
      · rw [if_pos hin, if_pos hin]
      · rw [if_neg hin, if_neg hin]
        apply ih (h.push h0 (int8_lt _) hin _ _ _ _)
        · show 129 ≤ fuel + (s.visited ++ [s.next]).length
          rw [List.length_append, List.length_singleton]
          omega
        · omega

theorem bounded_startLoop (m : Memory) (entry : ℤ) (name : ℕ → UniChar) :
    (startLoop m entry name).Bounded where
  nodup := List.nodup_nil
  range _ hk := absurd hk List.not_mem_nil
  next_lt := int8_lt _
  fresh := List.not_mem_nil

theorem slotLoop_startLoop {fuel : ℕ} (h : slotFuel ≤ fuel) (entry : ℤ) (name : ℕ → UniChar) :
    slotLoop m slot fuel (startLoop m entry name)
      = slotLoop m slot slotFuel (startLoop m entry name) :=
  slotLoop_fuel (bounded_startLoop m entry name) (Nat.le_refl _) h

end SlotLoop

/-! ### Entries as the format lays them out -/

/-- The slots that follow one another from `next` on, up to a negative number. -/
def Follow (m : Memory) (slot : ℤ) : ℤ → List ℕ → Prop
  | next, [] => next < 0
  | next, k :: ks => next = k ∧ Follow m slot (int8 (m (slot + 32 * k))) ks

structure Spread (m : Memory) (slot : ℤ) (cs : List UniChar) (ks : List ℕ) : Prop where
  char : ∀ i k : ℕ, ks[i]? = some k → ∀ j : ℕ, j < 15 → ∀ c, cs[15 * i + j]? = some c →
    uniCharAt m (slot + 32 * k + 2 + 2 * j) = c
  room : cs.length ≤ 15 * ks.length

/-- An entry as the format has it: head slot, the first 11 characters in it, and the
others in further slots, all among the `slots` there are. -/
structure Stored (m : Memory) (slot : ℤ) (slots head : ℕ) (e : DirEntry) : Prop where
  nul : 0 ∉ e.name.chars
  head_lt : head < slots
  inumber : leAt m (slot + 32 * head) 4 = e.inumber
  namlen : (m (slot + 32 * head + 5)).toNat = e.name.chars.length
  char : ∀ j : ℕ, j < 11 → ∀ c, e.name.chars[j]? = some c →
    uniCharAt m (slot + 32 * head + 6 + 2 * j) = c
  rest : ∃ ks : List ℕ, ks.Nodup ∧ (∀ k ∈ ks, k < slots) ∧
    Follow m slot (int8 (m (slot + 32 * head + 4))) ks ∧ Spread m slot (e.name.chars.drop 11) ks

section Stored

variable {m m' : Memory} {slot : ℤ} {slots size head : ℕ} {e : DirEntry}

theorem Follow.congr (h : AgreeOn size m m') (h0 : 0 ≤ slot) (hs : slot + 32 * slots ≤ size)
    {ks : List ℕ} (hks : ∀ k ∈ ks, k < slots) {next : ℤ} (hf : Follow m slot next ks) :
    Follow m' slot next ks := by
  induction ks generalizing next with
  | nil => exact hf
  | cons k ks ih =>
    obtain ⟨hnext, hf⟩ := hf
    have hk := hks k List.mem_cons_self
    refine ⟨hnext, ?_⟩
    rw [← h _ (by omega) (by omega)]
    exact ih (fun j hj => hks j (List.mem_cons_of_mem k hj)) hf

theorem Stored.congr (h : AgreeOn size m m') (h0 : 0 ≤ slot) (hs : slot + 32 * slots ≤ size)
    (he : Stored m slot slots head e) : Stored m' slot slots head e := by
  have hhead := he.head_lt
  obtain ⟨ks, hnodup, hlt, hfollow, hspread⟩ := he.rest
  refine ⟨he.nul, hhead, ?_, ?_, fun j hj c hc => ?_, ks, hnodup, hlt, ?_, ?_, hspread.room⟩
  · rw [← h.leAt (by omega) (by omega)]
    exact he.inumber
  · rw [← h _ (by omega) (by omega)]
    exact he.namlen
  · rw [← h.uniCharAt (by omega) (by omega)]
    exact he.char j hj c hc
  · rw [← h _ (by omega) (by omega)]
    exact hfollow.congr h h0 hs hlt
  · intro i k hk j hj c hc
    have hk' := hlt k (List.mem_of_getElem? hk)
    rw [← h.uniCharAt (by omega) (by omega)]
    exact hspread.char i k hk j hj c hc

end Stored

/-! ### Reading an entry back -/

section Read

variable {m : Memory} {slot : ℤ} {cs : List UniChar}

theorem padded_of_ne {ucs2 : ℕ → UniChar} {j : ℕ} (h : ∀ i ≤ j, ucs2 i ≠ 0) :
    padded ucs2 j = ucs2 j := if_pos h

def Holds (name : ℕ → UniChar) (cs : List UniChar) (n : ℕ) : Prop :=
  ∀ k < n, ∀ c, cs[k]? = some c → name k = c

theorem Holds.uniStrncpy {name : ℕ → UniChar} {n len : ℕ} (h : Holds name cs n)
    (ucs2 : ℕ → UniChar) (hnul : 0 ∉ cs) (hlen : n + len ≤ cs.length)
    (hu : ∀ j < len, ∀ c, cs[n + j]? = some c → ucs2 j = c) :
    Holds (uniStrncpy name n ucs2 len) cs (n + len) := by
  intro k hk c hc
  by_cases hn : n ≤ k
  · rw [Jfsrec.uniStrncpy, if_pos ⟨hn, hk⟩, padded_of_ne]
    · apply hu (k - n) (by omega)
      rwa [Nat.add_sub_cancel' hn]
    · intro i hi
      have hget : cs[n + i]? = some cs[n + i] := List.getElem?_eq_getElem (by omega)
      rw [hu i (by omega) _ hget]
      intro h0
      exact hnul (by rw [← h0]; exact List.getElem_mem _)
  · rw [Jfsrec.uniStrncpy, if_neg (fun h => hn h.1)]
    exact h k (by omega) c hc

/-- The state of the loop when `n` characters have been copied and the slots `done`
have been visited. -/
structure SlotLoop.Reading (cs : List UniChar) (done : List ℕ) (s : SlotLoop) : Prop where
  visited : s.visited = done.map Nat.cast
  n_le : s.n ≤ cs.length
  left : s.namlen - s.len = cs.length - s.n
  holds : Holds s.name cs s.n

theorem Follow.notMem {next : ℤ} {done ks : List ℕ} (hf : Follow m slot next ks)
    (hnodup : (done ++ ks).Nodup) : next ∉ done.map (Nat.cast : ℕ → ℤ) := by
  intro hmem
  obtain ⟨d, hd, heq⟩ := List.mem_map.mp hmem
  cases ks with
  | nil =>
    have hneg : next < 0 := hf
    omega
  | cons k ks =>
    have hk : next = k := hf.1
    have hdk : d = k := by omega
    subst hdk
    exact (List.nodup_append.mp hnodup).2.2 d hd d List.mem_cons_self rfl

/-- The slots behind the first one hold what comes 15 characters later, if there is more. -/
theorem Spread.tail {k n n' : ℕ} {ks : List ℕ} (h : Spread m slot (cs.drop n) (k :: ks))
    (hn : n' = min (n + 15) cs.length) : Spread m slot (cs.drop n') ks := by
  have hroom := h.room
  rw [List.length_drop, List.length_cons] at hroom
  refine ⟨fun i k' hk' j hj c hc => ?_, ?_⟩
  · rw [List.getElem?_drop] at hc
    obtain ⟨hlt, _⟩ := List.getElem?_eq_some_iff.mp hc
    refine h.char (i + 1) k' hk' j hj c ?_
    rw [List.getElem?_drop, ← hc]
    congr 1
    omega
  · rw [List.length_drop]
    omega

/-- **Following the slots of a name copies the rest of it.** -/
theorem slotLoop_reading (hnul : 0 ∉ cs) {ks : List ℕ} : ∀ (done : List ℕ) {s : SlotLoop}
    {fuel : ℕ}, s.Reading cs done → (done ++ ks).Nodup → ks.length < fuel →
      Follow m slot s.next ks → Spread m slot (cs.drop s.n) ks →
      Holds (slotLoop m slot fuel s).name cs cs.length := by
  induction ks with
  | nil =>
    intro done s fuel hs _ hfuel hfollow hspread
    obtain ⟨fuel, rfl⟩ : ∃ k, fuel = k + 1 := ⟨fuel - 1, by simp at hfuel; omega⟩
    have hneg : s.next < 0 := hfollow
    have hroom := hspread.room
    rw [List.length_drop, List.length_nil] at hroom
    have hn : cs.length = s.n := by
      have hle := hs.n_le
      omega
    rw [slotLoop, if_pos hneg, hn]
    exact hs.holds
  | cons k ks ih =>
    intro done s fuel hs hnodup hfuel hfollow hspread
    obtain ⟨fuel, rfl⟩ : ∃ k, fuel = k + 1 := ⟨fuel - 1, by omega⟩
    obtain ⟨hnext, hfollow⟩ := hfollow
    have hle := hs.n_le
    have hleft := hs.left
    have hnodup' : (done ++ [k] ++ ks).Nodup := by
      rwa [List.append_assoc, List.singleton_append]
    have hvis : s.visited ++ [s.next] = (done ++ [k]).map Nat.cast := by
      rw [hs.visited, hnext, List.map_append, List.map_singleton]
    have hlen : s.n + (min (s.namlen - s.len) 15).toNat ≤ cs.length := by omega
    rw [slotLoop, if_neg (by omega)]
    dsimp only
    rw [hvis, hnext, if_neg (hfollow.notMem hnodup')]
    apply ih (done ++ [k])
    · refine ⟨rfl, hlen, ?_, ?_⟩
      · dsimp only
        omega
      · apply hs.holds.uniStrncpy _ hnul hlen
        intro j hj c hc
        refine hspread.char 0 k rfl j (by omega) c ?_
        rw [List.getElem?_drop]
        simpa using hc
    · exact hnodup'
    · simp only [List.length_cons] at hfuel
      omega
    · exact hfollow
    · dsimp only
      exact hspread.tail (by omega)

theorem DirEntry.eq_of_chars {e e' : DirEntry} (hchars : e.name.chars = e'.name.chars)
    (hnum : e.inumber = e'.inumber) : e = e' := by
  obtain ⟨⟨chars, _⟩, inumber⟩ := e
  obtain ⟨⟨chars', _⟩, inumber'⟩ := e'
  simp only at hchars hnum
  subst hchars hnum
  rfl

theorem Stored.reading_startLoop {slots head : ℕ} {e : DirEntry} (he : Stored m slot slots head e)
    (name : ℕ → UniChar) :
    (startLoop m (slot + 32 * head) name).Reading e.name.chars [] := by
  have hlen : 0 + min (m (slot + 32 * head + 5)).toNat 11 ≤ e.name.chars.length := by
    rw [he.namlen]
    omega
  refine ⟨rfl, ?_, ?_, ?_⟩
  · simpa [startLoop] using hlen
  · simp only [startLoop, he.namlen]
  · have h0 : Holds (Function.update name (m (slot + 32 * head + 5)).toNat 0) e.name.chars 0 :=
      fun k hk => absurd hk (Nat.not_lt_zero k)
    have hcopy := h0.uniStrncpy (fun j => uniCharAt m (slot + 32 * head + 6 + 2 * j))
      he.nul hlen (fun j hj c hc => he.char j (by omega) c (by simpa using hc))
    simpa [startLoop] using hcopy

/-- **An entry that is laid out as the format has it is read.** -/
theorem getDirentry_of_stored {slots head : ℕ} {e : DirEntry} (he : Stored m slot slots head e)
    (hslots : slots ≤ 128) (name : ℕ → UniChar) : getDirentry m slot head name = e := by
  obtain ⟨ks, hnodup, hlt, hfollow, hspread⟩ := he.rest
  have hks : ks.length < slotFuel := by
    have hle : ks.length ≤ slots := by
      have hsub : ks ⊆ List.range slots := fun k hk => List.mem_range.mpr (hlt k hk)
      have h := (hnodup.subperm hsub).length_le
      rwa [List.length_range] at h
    rw [slotFuel]
    omega
  have hrest : Spread m slot
      (e.name.chars.drop (startLoop m (slot + 32 * head) name).n) ks := by
    have hn : (startLoop m (slot + 32 * head) name).n = min e.name.chars.length 11 := by
      simp only [startLoop, he.namlen]
    rw [hn]
    by_cases h11 : 11 ≤ e.name.chars.length
    · rw [Nat.min_eq_right h11]
      exact hspread
    · have hnil : e.name.chars.drop (min e.name.chars.length 11) = [] :=
        List.drop_eq_nil_of_le (by omega)
      rw [hnil]
      exact ⟨fun i k _ j _ c hc => by simp at hc, by simp⟩
  have hread := slotLoop_reading he.nul [] (he.reading_startLoop name) (by simpa using hnodup)
    hks hfollow hrest
  refine DirEntry.eq_of_chars (List.ext_getElem? (fun k => ?_)) he.inumber
  simp only [getDirentry, he.namlen]
  by_cases hk : k < e.name.chars.length
  · have hget : e.name.chars[k]? = some e.name.chars[k] := List.getElem?_eq_getElem hk
    rw [List.getElem?_map, List.getElem?_range hk, hget, Option.map_some, hread k hk _ hget]
  · rw [List.getElem?_eq_none (by simpa using hk), List.getElem?_eq_none (by omega)]

end Read

end Jfsrec
