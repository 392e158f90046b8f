import Jfsrec.Direntry

/-!
# Chains of slots

The loop of `get_direntry` follows the numbers that it finds in the slots, whatever they
are.  `slotTrace` is the loop with the states in which its rounds begin.  In each of them,
what has been copied and what is left add up to the length of the name: `Copying`.
-/

namespace Jfsrec

variable {m : Memory} {slot : ℤ} {s : SlotLoop} {fuel total : ℕ} {name : ℕ → UniChar}

/-- The loop of `get_direntry`, with the state at the beginning of every round. -/
def slotTrace (m : Memory) (slot : ℤ) : ℕ → SlotLoop → List SlotLoop × SlotLoop
  | 0, s => ([], s)
  | fuel + 1, s =>
      if s.next < 0 then ([], s)
      else
        let visited := s.visited ++ [s.next]
        let p := slot + 32 * s.next
        let namlen := s.namlen - s.len
        let len := min namlen 15
        let name := uniStrncpy s.name s.n (fun j => uniCharAt m (p + 2 + 2 * j)) len.toNat
        let next := int8 (m p)
        if next ∈ visited then ([s], ⟨namlen, len, next, visited, s.n, name⟩)
        else
          let t := slotTrace m slot fuel ⟨namlen, len, next, visited, s.n + len.toNat, name⟩
          (s :: t.1, t.2)

def SlotLoop.left (s : SlotLoop) : ℤ := s.namlen - s.len

/-- How many characters a round writes, from `n` on. -/
def SlotLoop.segment (s : SlotLoop) : ℕ := (min s.left 15).toNat

/-- The state at the beginning of a round: of a name of `total` characters, `n` have been
written in front of the zero at its end. -/
structure SlotLoop.Copying (total : ℕ) (s : SlotLoop) : Prop where
  left_nonneg : 0 ≤ s.left
  split : s.n + s.left = total
  nul : s.name total = 0

theorem slotTrace_snd (fuel : ℕ) : ∀ s, (slotTrace m slot fuel s).2 = slotLoop m slot fuel s := by
  induction fuel with
  | zero => intro s; rfl
  | succ fuel ih =>
    intro s
    rw [slotTrace, slotLoop]
    split_ifs
    · rfl
    · dsimp only
      split_ifs
      · rfl
      · exact ih _

/-! ### One round -/

theorem uniStrncpy_outside {n len k : ℕ} (ucs2 : ℕ → UniChar) (h : ¬ (n ≤ k ∧ k < n + len)) :
    uniStrncpy name n ucs2 len k = name k :=
  if_neg h

theorem SlotLoop.Copying.segment_le (h : s.Copying total) : s.n + s.segment ≤ total := by
  have hleft := h.left_nonneg
  have hsplit := h.split
  unfold SlotLoop.segment
  omega

/-- The next round begins with that much more written. -/
theorem SlotLoop.Copying.next (h : s.Copying total) (ucs2 : ℕ → UniChar) (next : ℤ)
    (visited : List ℤ) :
    SlotLoop.Copying total ⟨s.left, min s.left 15, next, visited, s.n + s.segment,
      uniStrncpy s.name s.n ucs2 s.segment⟩ where
  left_nonneg := by
    show 0 ≤ s.left - min s.left 15
    omega
  split := by
    have hleft := h.left_nonneg
    have hsplit := h.split
    show ((s.n + s.segment : ℕ) : ℤ) + (s.left - min s.left 15) = total
    unfold SlotLoop.segment
    omega
  nul := by
    have hle := h.segment_le
    show uniStrncpy s.name s.n ucs2 s.segment total = 0
    rw [uniStrncpy_outside _ (by omega), h.nul]

theorem copying_startLoop (m : Memory) (entry : ℤ) (name : ℕ → UniChar) :
    (startLoop m entry name).Copying (m (entry + 5)).toNat where
  left_nonneg := by
    show (0 : ℤ) ≤ (m (entry + 5)).toNat - (min (m (entry + 5)).toNat 11 : ℕ)
    omega
  split := by
    show ((min (m (entry + 5)).toNat 11 : ℕ) : ℤ)
      + ((m (entry + 5)).toNat - (min (m (entry + 5)).toNat 11 : ℕ)) = _
    omega
  nul := by
    show uniStrncpy _ 0 _ (min (m (entry + 5)).toNat 11) (m (entry + 5)).toNat = 0
    rw [uniStrncpy_outside _ (by omega), Function.update_self]

/-! ### All rounds -/

theorem SlotLoop.Bounded.length_lt (h : s.Bounded) (h0 : ¬ s.next < 0) :
    s.visited.length < 128 := by
  have hfresh : (-1 : ℤ) ∉ s.visited ++ [s.next] := by
    intro hmem
    rcases List.mem_append.mp hmem with hmem | hmem
    · exact absurd (h.range _ hmem).1 (by decide)
    · exact h0 (List.mem_singleton.mp hmem ▸ by decide)
  have hpushed : SlotLoop.Bounded ⟨0, 0, -1, s.visited ++ [s.next], 0, s.name⟩ :=
    h.push h0 (by decide) hfresh 0 0 0 s.name
  have hle := hpushed.length_le
  rw [List.length_append, List.length_singleton] at hle
  omega

/-- **The rounds visit different slots.** -/
theorem length_slotTrace (m : Memory) (slot : ℤ) (fuel : ℕ) : ∀ {s : SlotLoop}, s.Bounded →
    (slotTrace m slot fuel s).1.length + s.visited.length ≤ 128 ∧
      ∀ r ∈ (slotTrace m slot fuel s).1, 0 ≤ r.next ∧ r.next < 128 := by
  induction fuel with
  | zero =>
    intro s h
    exact ⟨by simpa [slotTrace] using h.length_le, fun r hr => absurd hr List.not_mem_nil⟩
  | succ fuel ih =>
    intro s h
    rw [slotTrace]
    split_ifs with h0
    · exact ⟨by simpa using h.length_le, fun r hr => absurd hr List.not_mem_nil⟩
    · have hlt := h.length_lt h0
      have hself : 0 ≤ s.next ∧ s.next < 128 := ⟨not_lt.mp h0, h.next_lt⟩
      dsimp only
      split_ifs with hin
      · exact ⟨by rw [List.length_singleton]; omega, fun r hr => List.mem_singleton.mp hr ▸ hself⟩
      · obtain ⟨hlen, hall⟩ := ih (h.push h0 (int8_lt _) hin _ _ _ _)
        rw [List.length_append, List.length_singleton] at hlen
        exact ⟨by rw [List.length_cons]; omega, List.forall_mem_cons.mpr ⟨hself, hall⟩⟩

/-- **Every round writes inside the name**, and nothing else is touched. -/
theorem copying_slotTrace (m : Memory) (slot : ℤ) (fuel : ℕ) : ∀ {s : SlotLoop}, s.Copying total →
    (∀ r ∈ (slotTrace m slot fuel s).1, r.Copying total) ∧
      ∀ k, total ≤ k → (slotTrace m slot fuel s).2.name k = s.name k := by
  induction fuel with
  | zero =>
    intro s h
    exact ⟨fun r hr => absurd hr List.not_mem_nil, fun _ _ => rfl⟩
  | succ fuel ih =>
    intro s h
    have hle := h.segment_le
    rw [slotTrace]
    split_ifs with h0
    · exact ⟨fun r hr => absurd hr List.not_mem_nil, fun _ _ => rfl⟩
    · dsimp only
      split_ifs with hin
      · exact ⟨fun r hr => List.mem_singleton.mp hr ▸ h,
          fun k hk => uniStrncpy_outside _
            (fun hw => absurd (Nat.lt_of_lt_of_le hw.2 hle) (not_lt.mpr hk))⟩
      · obtain ⟨hall, hname⟩ := ih (h.next (fun j =>
          uniCharAt m (slot + 32 * s.next + 2 + 2 * j)) (int8 (m (slot + 32 * s.next)))
          (s.visited ++ [s.next]))
        refine ⟨List.forall_mem_cons.mpr ⟨h, hall⟩, fun k hk => ?_⟩
        exact (hname k hk).trans (uniStrncpy_outside _ (by omega))

/-- **The loop of `get_direntry` is bounded**, whatever the slots hold: it ends by itself, after
at most 128 rounds; every slot that it follows a number to is one of 128, the remaining
length stays non-negative, and all that is written is in front of the zero at the end. -/
theorem slotTrace_bounded (m : Memory) (slot : ℤ) (head : ℕ) (name : ℕ → UniChar) (extra : ℕ) :
    let entry := slot + 32 * head
    let namlen := (m (entry + 5)).toNat
    let t := slotTrace m slot (slotFuel + extra) (startLoop m entry name)
    t.2 = slotLoop m slot slotFuel (startLoop m entry name) ∧ t.1.length ≤ 128 ∧
      (∀ r ∈ t.1, (0 ≤ r.next ∧ r.next < 128) ∧ 0 ≤ r.left ∧ r.n + r.segment ≤ namlen) ∧
      t.2.name namlen = 0 ∧ ∀ k, namlen < k → t.2.name k = name k := by
  intro entry namlen t
  have hstart := copying_startLoop m entry name
  obtain ⟨hlen, hslots⟩ := length_slotTrace m slot (slotFuel + extra)
    (bounded_startLoop m entry name)
  obtain ⟨hrounds, hname⟩ := copying_slotTrace m slot (slotFuel + extra) hstart
  refine ⟨?_, hlen, fun r hr => ⟨hslots r hr, (hrounds r hr).left_nonneg,
    (hrounds r hr).segment_le⟩, ?_, fun k hk => ?_⟩
  · exact (slotTrace_snd _ _).trans (slotLoop_startLoop (Nat.le_add_right _ _) entry name)
  · exact (hname namlen le_rfl).trans hstart.nul
  · refine (hname k (Nat.le_of_lt hk)).trans ?_
    show uniStrncpy _ 0 _ (min namlen 11) k = name k
    rw [uniStrncpy_outside _ (by omega), Function.update_of_ne (by omega)]

end Jfsrec
