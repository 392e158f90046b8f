import Jfsrec.Lib.Links

/-!
# Descents

A recursion that visits the children of a node in their order, gives up when a
node raises, and keeps no record of where it has been.  `visit` is what becomes
of it with a given fuel.  It gets to a child only if nothing below the children
before it raises, and such children are `Live`.  Where finitely many nodes can
be got to, the recursion ends exactly if no node it gets to leads to itself:
`visit_ends_iff`.
-/

namespace Lib

variable {α : Type}

def visitAll (visit : α → Option Bool) : List α → Option Bool
  | [] => some true
  | a :: l =>
      match visit a with
      | some true => visitAll visit l
      | r => r

/-- Whether the visit returns (`some true`) or raises (`some false`); `none` when the
fuel runs out.  A node without a list of children raises. -/
def visit (kids : α → Option (List α)) : ℕ → α → Option Bool
  | 0, _ => none
  | fuel + 1, a =>
      match kids a with
      | none => some false
      | some l => visitAll (visit kids fuel) l

/-! ### Visiting a list -/

section List

variable {f g : α → Option Bool} {a : α} {l : List α}

theorem visitAll_cons_true (h : f a = some true) : visitAll f (a :: l) = visitAll f l := by
  simp only [visitAll, h]

theorem visitAll_cons_false (h : f a = some false) : visitAll f (a :: l) = some false := by
  simp only [visitAll, h]

theorem visitAll_cons_none (h : f a = none) : visitAll f (a :: l) = none := by
  simp only [visitAll, h]

theorem visitAll_mono (h : ∀ a r, f a = some r → g a = some r) {r : Bool}
    (hl : visitAll f l = some r) : visitAll g l = some r := by
  induction l with
  | nil => exact hl
  | cons a l ih =>
    cases hf : f a with
    | none => rw [visitAll_cons_none hf] at hl; cases hl
    | some b =>
      cases b with
      | false =>
        rw [visitAll_cons_false hf] at hl
        rw [visitAll_cons_false (h a _ hf), hl]
      | true =>
        rw [visitAll_cons_true hf] at hl
        rw [visitAll_cons_true (h a _ hf), ih hl]

theorem visitAll_true : visitAll f l = some true ↔ ∀ a ∈ l, f a = some true := by
  induction l with
  | nil => simp [visitAll]
  | cons a l ih =>
    rw [List.forall_mem_cons, ← ih]
    cases hf : f a with
    | none => simp [visitAll_cons_none hf]
    | some b =>
      cases b with
      | false => simp [visitAll_cons_false hf]
      | true => simp [visitAll_cons_true hf]

theorem exists_of_visitAll_false (hl : visitAll f l = some false) : ∃ a ∈ l, f a = some false := by
  induction l with
  | nil => cases hl
  | cons a l ih =>
    cases hf : f a with
    | none => rw [visitAll_cons_none hf] at hl; cases hl
    | some b =>
      cases b with
      | false => exact ⟨a, List.mem_cons_self, hf⟩
      | true =>
        rw [visitAll_cons_true hf] at hl
        obtain ⟨c, hc, hcf⟩ := ih hl
        exact ⟨c, List.mem_cons_of_mem a hc, hcf⟩

theorem visited_of_visitAll {pre post : List α} {r : Bool}
    (hl : visitAll f (pre ++ a :: post) = some r) (hpre : ∀ c ∈ pre, f c ≠ some false) :
    ∃ b, f a = some b := by
  induction pre with
  | nil =>
    cases hf : f a with
    | none => rw [List.nil_append, visitAll_cons_none hf] at hl; cases hl
    | some b => exact ⟨b, rfl⟩
  | cons c pre ih =>
    rw [List.cons_append] at hl
    cases hf : f c with
    | none => rw [visitAll_cons_none hf] at hl; cases hl
    | some b =>
      cases b with
      | false => exact absurd hf (hpre c List.mem_cons_self)
      | true =>
        rw [visitAll_cons_true hf] at hl
        exact ih hl (fun d hd => hpre d (List.mem_cons_of_mem c hd))

end List

/-! ### Where a visit gets to -/

section Visit

variable {kids : α → Option (List α)} {a b : α}

theorem visit_of_raising (h : kids a = none) (fuel : ℕ) : visit kids (fuel + 1) a = some false := by
  simp only [visit, h]

theorem visit_of_kids {l : List α} (h : kids a = some l) (fuel : ℕ) :
    visit kids (fuel + 1) a = visitAll (visit kids fuel) l := by
  simp only [visit, h]

theorem visit_mono {m n : ℕ} (hmn : m ≤ n) {r : Bool} (h : visit kids m a = some r) :
    visit kids n a = some r := by
  induction m generalizing a n r with
  | zero => cases h
  | succ m ih =>
    obtain ⟨n, rfl⟩ : ∃ k, n = k + 1 := ⟨n - 1, by omega⟩
    cases hk : kids a with
    | none =>
      rw [visit_of_raising hk] at h ⊢
      exact h
    | some l =>
      rw [visit_of_kids hk] at h ⊢
      exact visitAll_mono (fun _ _ hf => ih (by omega) hf) h

def Kid (kids : α → Option (List α)) (a b : α) : Prop := ∃ l, kids a = some l ∧ b ∈ l

/-- Something below `a`, or `a` itself, raises. -/
def Raises (kids : α → Option (List α)) (a : α) : Prop :=
  ∃ b, Relation.ReflTransGen (Kid kids) a b ∧ kids b = none

/-- A child of `a` that the visit of `a` gets to, if it gets through with the ones
before. -/
def Live (kids : α → Option (List α)) (a b : α) : Prop :=
  ∃ pre post, kids a = some (pre ++ b :: post) ∧ ∀ c ∈ pre, ¬ Raises kids c

theorem Live.kid (h : Live kids a b) : Kid kids a b := by
  obtain ⟨pre, post, hk, _⟩ := h
  exact ⟨_, hk, List.mem_append_right _ List.mem_cons_self⟩

theorem Raises.of_kid (hab : Kid kids a b) (h : Raises kids b) : Raises kids a := by
  obtain ⟨c, hc, hk⟩ := h
  exact ⟨c, .head hab hc, hk⟩

theorem raises_of_visit {fuel : ℕ} (h : visit kids fuel a = some false) : Raises kids a := by
  induction fuel generalizing a with
  | zero => cases h
  | succ fuel ih =>
    cases hk : kids a with
    | none => exact ⟨a, .refl, hk⟩
    | some l =>
      rw [visit_of_kids hk] at h
      obtain ⟨b, hb, hf⟩ := exists_of_visitAll_false h
      exact (ih hf).of_kid ⟨l, hk, hb⟩

theorem visit_kid {fuel : ℕ} (h : visit kids fuel a = some true) (hab : Kid kids a b) :
    ∃ n < fuel, visit kids n b = some true := by
  obtain ⟨l, hk, hb⟩ := hab
  cases fuel with
  | zero => cases h
  | succ fuel =>
    rw [visit_of_kids hk, visitAll_true] at h
    exact ⟨fuel, by omega, h b hb⟩

theorem not_raises_of_visit {fuel : ℕ} (h : visit kids fuel a = some true) : ¬ Raises kids a := by
  rintro ⟨b, hab, hk⟩
  have hb : ∃ n, visit kids n b = some true := by
    clear hk
    induction hab with
    | refl => exact ⟨fuel, h⟩
    | tail _ hbc ih =>
      obtain ⟨n, hn⟩ := ih
      obtain ⟨m, _, hm⟩ := visit_kid hn hbc
      exact ⟨m, hm⟩
  obtain ⟨n, hn⟩ := hb
  cases n with
  | zero => cases hn
  | succ n => rw [visit_of_raising hk] at hn; cases hn

theorem visit_live {fuel : ℕ} {r : Bool} (h : visit kids fuel a = some r) (hab : Live kids a b) :
    ∃ n < fuel, ∃ r, visit kids n b = some r := by
  obtain ⟨pre, post, hk, hpre⟩ := hab
  cases fuel with
  | zero => cases h
  | succ fuel =>
    rw [visit_of_kids hk] at h
    exact ⟨fuel, by omega, visited_of_visitAll h (fun c hc hf => hpre c hc (raises_of_visit hf))⟩

theorem visit_transGen {fuel : ℕ} {r : Bool} (h : visit kids fuel a = some r)
    (hab : Relation.TransGen (Live kids) a b) : ∃ n < fuel, ∃ r, visit kids n b = some r := by
  induction hab with
  | single hab => exact visit_live h hab
  | tail _ hbc ih =>
    obtain ⟨m, hm, s, hs⟩ := ih
    obtain ⟨n, hn, hr⟩ := visit_live hs hbc
    exact ⟨n, by omega, hr⟩

/-- A visit that ends meets no node again. -/
theorem not_cycle_of_visit {fuel : ℕ} {r : Bool} (h : visit kids fuel a = some r) :
    ¬ Relation.TransGen (Live kids) a a := by
  induction fuel using Nat.strong_induction_on generalizing r with
  | _ fuel ih =>
    intro hc
    obtain ⟨n, hn, s, hs⟩ := visit_transGen h hc
    exact ih n hn hs hc

/-- The visit of `a` ends. -/
def VisitEnds (kids : α → Option (List α)) (a : α) : Prop := ∃ fuel, (visit kids fuel a).isSome

theorem visitEnds_iff : VisitEnds kids a ↔ ∃ fuel r, visit kids fuel a = some r := by
  refine ⟨?_, ?_⟩
  · rintro ⟨fuel, h⟩
    exact ⟨fuel, Option.isSome_iff_exists.mp h⟩
  · rintro ⟨fuel, r, h⟩
    exact ⟨fuel, by rw [h]; rfl⟩

/-- If the visits of the live children end, so do those of all of them together. -/
theorem visitAll_ends (h : ∀ b, Live kids a b → VisitEnds kids b) {post : List α} :
    ∀ (pre : List α), kids a = some (pre ++ post) → (∀ c ∈ pre, ¬ Raises kids c) →
      ∃ fuel r, visitAll (visit kids fuel) post = some r := by
  induction post with
  | nil => exact fun _ _ _ => ⟨0, true, rfl⟩
  | cons b post ih =>
    intro pre hk hpre
    obtain ⟨m, r, hm⟩ := visitEnds_iff.mp (h b ⟨pre, post, hk, hpre⟩)
    cases r with
    | false => exact ⟨m, false, visitAll_cons_false hm⟩
    | true =>
      obtain ⟨n, r, hn⟩ : ∃ n r, visitAll (visit kids n) post = some r := by
        apply ih (pre ++ [b])
        · rw [hk, List.append_assoc, List.singleton_append]
        · intro c hc
          rcases List.mem_append.mp hc with hc | hc
          · exact hpre c hc
          · rw [List.mem_singleton.mp hc]
            exact not_raises_of_visit hm
      refine ⟨max m n, r, ?_⟩
      rw [visitAll_cons_true (visit_mono (Nat.le_max_left m n) hm)]
      exact visitAll_mono (fun _ _ hf => visit_mono (Nat.le_max_right m n) hf) hn

theorem visitEnds_of_live (h : ∀ b, Live kids a b → VisitEnds kids b) : VisitEnds kids a := by
  cases hk : kids a with
  | none => exact ⟨1, by rw [visit_of_raising hk]; rfl⟩
  | some l =>
    obtain ⟨n, r, hn⟩ := visitAll_ends h [] hk (List.forall_mem_nil _)
    exact ⟨n + 1, by rw [visit_of_kids hk, hn]; rfl⟩

/-- **A descent ends exactly if no node that it gets to leads to itself.** -/
theorem visit_ends_iff (hfin : {b | Relation.ReflTransGen (Live kids) a b}.Finite) :
    VisitEnds kids a ↔
      ¬ ∃ b, Relation.ReflTransGen (Live kids) a b ∧ Relation.TransGen (Live kids) b b := by
  refine ⟨?_, ?_⟩
  · intro h
    obtain ⟨fuel, r, hr⟩ := visitEnds_iff.mp h
    rintro ⟨b, hab, hc⟩
    have hb : ∃ n s, visit kids n b = some s := by
      rcases Relation.reflTransGen_iff_eq_or_transGen.mp hab with rfl | hab
      · exact ⟨fuel, r, hr⟩
      · obtain ⟨n, _, s, hs⟩ := visit_transGen hr hab
        exact ⟨n, s, hs⟩
    obtain ⟨n, s, hs⟩ := hb
    exact not_cycle_of_visit hs hc
  · intro h
    refine induction_of_acyclic hfin ?_ h ?_ a .refl
    · intro b hab c hbc
      exact hab.tail hbc
    · intro b _ ih
      exact visitEnds_of_live ih

/-- A descent returns exactly if nothing raises and it ends. -/
theorem visit_true_iff (hfin : {b | Relation.ReflTransGen (Live kids) a b}.Finite) :
    (∃ fuel, visit kids fuel a = some true) ↔ ¬ Raises kids a ∧
      ¬ ∃ b, Relation.ReflTransGen (Live kids) a b ∧ Relation.TransGen (Live kids) b b := by
  rw [← visit_ends_iff hfin, visitEnds_iff]
  refine ⟨?_, ?_⟩
  · rintro ⟨fuel, h⟩
    exact ⟨not_raises_of_visit h, fuel, true, h⟩
  · rintro ⟨hraises, fuel, r, h⟩
    cases r with
    | true => exact ⟨fuel, h⟩
    | false => exact absurd (raises_of_visit h) hraises

/-! ### What a visit comes to -/

/-- Nothing below `a` raises, and nothing below it leads to itself. -/
def Sound (kids : α → Option (List α)) (a : α) : Prop :=
  ¬ Raises kids a ∧
    ¬ ∃ b, Relation.ReflTransGen (Live kids) a b ∧ Relation.TransGen (Live kids) b b

/-- A child that the visit of `a` comes to: it has returned from those before. -/
def Reached (kids : α → Option (List α)) (a b : α) : Prop :=
  ∃ pre post, kids a = some (pre ++ b :: post) ∧ ∀ c ∈ pre, Sound kids c

theorem exists_fuel_visit {l : List α} (h : ∀ c ∈ l, ∃ fuel, visit kids fuel c = some true) :
    ∃ fuel, ∀ n, fuel ≤ n → ∀ c ∈ l, visit kids n c = some true := by
  induction l with
  | nil => exact ⟨0, fun n _ c hc => absurd hc List.not_mem_nil⟩
  | cons a l ih =>
    obtain ⟨m, hm⟩ := h a List.mem_cons_self
    obtain ⟨k, hk⟩ := ih (fun c hc => h c (List.mem_cons_of_mem a hc))
    refine ⟨max m k, fun n hn c hc => ?_⟩
    rcases List.mem_cons.mp hc with rfl | hc
    · exact visit_mono (by omega) hm
    · exact hk n (by omega) c hc

end Visit

end Lib
