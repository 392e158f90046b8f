import Mathlib.Data.List.Basic
import Mathlib.Logic.Relation
import Mathlib.Logic.Function.Iterate

/-!
# Loops

`countWhile` is a loop that walks and counts its rounds up to a cap, `forWrap` one
over a vector with a counter modulo `w`, which never gets past the end of a vector of
`w` elements or more.  The other loop is over a vector that grows under it.
`forSize size body` is

    for (i = 0; i < v.size(); ++i) body(i);

with the bound read again on every round, so that elements `body` appends are
visited in their turn.  `forSize_rule` is its total-correctness rule: an
invariant, and a bound on the sizes of the states that satisfy it.  `ForSteps`
relates the loop heads one run passes through, and `forSteps_of_forSize` says
that the run's result is the last of them.
-/

namespace Lib

/-! ### Counting rounds -/

/-- `do { ++n; } while (go(j) && n < cap)`, where `j` moves by `move` from one
round to the next. -/
def countWhile (cap : ℕ) (go : ℕ → Bool) (move : ℕ → ℕ) : ℕ → ℕ → ℕ → ℕ
  | 0, _, n => n
  | fuel + 1, j, n =>
      if go j = true ∧ n + 1 < cap then countWhile cap go move fuel (move j) (n + 1) else n + 1

variable {cap : ℕ} {go : ℕ → Bool} {move : ℕ → ℕ}

theorem le_countWhile (fuel j n : ℕ) : n ≤ countWhile cap go move fuel j n := by
  induction fuel generalizing j n with
  | zero => exact Nat.le_refl n
  | succ fuel ih =>
    rw [countWhile]
    split
    · exact Nat.le_trans (Nat.le_succ n) (ih (move j) (n + 1))
    · exact Nat.le_succ n

/-- A walk that can go on `m` times counts `m + 1` rounds, up to the cap. -/
theorem countWhile_ge {fuel j n m : ℕ} (hfuel : m < fuel)
    (h : ∀ k < m, go (move^[k] j) = true) :
    min cap (n + 1 + m) ≤ countWhile cap go move fuel j n := by
  induction m generalizing fuel j n with
  | zero =>
    obtain ⟨fuel, rfl⟩ : ∃ f, fuel = f + 1 := ⟨fuel - 1, by omega⟩
    rw [countWhile]
    split
    · have hle : n + 1 ≤ countWhile cap go move fuel (move j) (n + 1) := le_countWhile _ _ _
      omega
    · omega
  | succ m ih =>
    obtain ⟨fuel, rfl⟩ : ∃ f, fuel = f + 1 := ⟨fuel - 1, by omega⟩
    have h0 : go j = true := h 0 (by omega)
    rw [countWhile]
    by_cases hcap : n + 1 < cap
    · rw [if_pos ⟨h0, hcap⟩]
      have hge : min cap (n + 1 + 1 + m) ≤ countWhile cap go move fuel (move j) (n + 1) :=
        ih (by omega) (fun k hk => h (k + 1) (by omega))
      omega
    · rw [if_neg (fun hc => hcap hc.2)]
      omega

/-! ### Counters that wrap -/

section Wrap

variable {α σ : Type}

/-- `for (; i < v.size(); ++i)`, where `i` is counted modulo `w`.  The body may leave the
loop, `some none`, or not end, `none`, and so may the loop; its fuel is in rounds. -/
def forWrap (w : ℕ) (v : List α) (body : ℕ → α → σ → Option (Option σ)) :
    ℕ → ℕ → σ → Option (Option σ)
  | 0, _, _ => none
  | fuel + 1, i, s =>
      match v[i]? with
      | none => some (some s)
      | some a =>
          match body i a s with
          | some (some s) => forWrap w v body fuel ((i + 1) % w) s
          | r => r

variable {w : ℕ} {v : List α} {body : ℕ → α → σ → Option (Option σ)}

theorem forWrap_succ {fuel i : ℕ} {s : σ} {a : α} (ha : v[i]? = some a) :
    forWrap w v body (fuel + 1) i s = match body i a s with
      | some (some s) => forWrap w v body fuel ((i + 1) % w) s
      | r => r := by
  rw [forWrap, ha]

/-- **A counter that reaches the end visits the elements in order.** -/
theorem forWrap_of_lt {g : α × ℕ → σ → Option σ} (hw : v.length < w)
    (hbody : ∀ i a s, v[i]? = some a → body i a s = some (g (a, i) s)) {fuel : ℕ} :
    ∀ {i : ℕ} {s : σ}, i ≤ v.length → v.length < fuel + i →
      forWrap w v body fuel i s = some (((v.drop i).zipIdx i).foldlM (fun s p => g p s) s) := by
  induction fuel with
  | zero => intro i s hi hfuel; omega
  | succ fuel ih =>
    intro i s hi hfuel
    cases ha : v[i]? with
    | none =>
      rw [forWrap, ha, List.drop_of_length_le (List.getElem?_eq_none_iff.mp ha)]
      rfl
    | some a =>
      obtain ⟨hlt, hget⟩ := List.getElem?_eq_some_iff.mp ha
      rw [forWrap_succ ha, hbody i a s ha, List.drop_eq_getElem_cons hlt, hget, List.zipIdx_cons,
        List.foldlM_cons]
      cases hg : g (a, i) s with
      | none => rfl
      | some s' =>
        show forWrap w v body fuel ((i + 1) % w) s' = _
        rw [Nat.mod_eq_of_lt (by omega), ih (by omega) (by omega)]
        rfl

theorem foldlM_zipIdx (l : List α) (k : ℕ) (h : σ → α → Option σ) (s : σ) :
    (l.zipIdx k).foldlM (fun s p => h s p.1) s = l.foldlM h s := by
  conv_rhs => rw [← List.zipIdx_map_fst k l, List.foldlM_map]

theorem foldlM_check (l : List α) (p : α → Bool) :
    l.foldlM (fun _ a => if p a then some () else none) () = if l.all p then some () else none := by
  induction l with
  | nil => rfl
  | cons a l ih =>
    rw [List.foldlM_cons, List.all_cons]
    cases p a with
    | false => rfl
    | true => exact ih

theorem forWrap_check {p : ℕ → α → Bool} {body : ℕ → α → Unit → Option (Option Unit)}
    (hw : v.length < w)
    (hbody : ∀ i a s, v[i]? = some a → body i a s = some (if p i a then some () else none))
    {fuel i : ℕ} (hi : i ≤ v.length) (hfuel : v.length < fuel + i) :
    forWrap w v body fuel i () =
      some (if ((v.drop i).zipIdx i).all (fun q : α × ℕ => p q.2 q.1) then some ()
        else none) := by
  rw [forWrap_of_lt (g := fun q _ => if p q.2 q.1 then some () else none) hw hbody hi hfuel]
  exact congrArg some (foldlM_check _ (fun q : α × ℕ => p q.2 q.1))

theorem all_zipIdx (l : List α) (k : ℕ) (p : α → Bool) :
    (l.zipIdx k).all (fun q => p q.1) = l.all p := by
  conv_rhs => rw [← List.zipIdx_map_fst k l, List.all_map]
  rfl

/-- To compare every element with all later ones is to compare all pairs. -/
theorem all_later_iff (r : α → α → Bool) (l : List α) :
    l.zipIdx.all (fun q => (l.drop (q.2 + 1)).all (r q.1)) = true ↔
      l.Pairwise (fun a b => r a b = true) := by
  rw [List.pairwise_iff_getElem, List.all_eq_true]
  simp only [List.all_eq_true, List.mem_drop_iff_getElem, Prod.forall,
    List.mk_mem_zipIdx_iff_getElem?]
  constructor
  · intro h i j hi hj hij
    have hsub : i + 1 + (j - (i + 1)) = j := by omega
    exact h l[i] i (List.getElem?_eq_getElem hi) l[j]
      ⟨j - (i + 1), by omega, by simp only [hsub]⟩
  · rintro h a i ha b ⟨k, hk, rfl⟩
    obtain ⟨hi, rfl⟩ := List.getElem?_eq_some_iff.mp ha
    exact h i _ hi _ (by omega)

/-- **A counter that wraps before the end does not reach it.** -/
theorem forWrap_ne_end (hw : w ≤ v.length) {fuel : ℕ}
    (hbody : ∀ i a s, body i a s ≠ none) :
    ∀ {i : ℕ} {s : σ}, i < w → forWrap w v body fuel i s = none ∨
      forWrap w v body fuel i s = some none := by
  induction fuel with
  | zero => intro i s _; exact Or.inl rfl
  | succ fuel ih =>
    intro i s hi
    have ha : v[i]? = some v[i] := List.getElem?_eq_getElem (by omega)
    rw [forWrap_succ ha]
    cases hb : body i v[i] s with
    | none => exact absurd hb (hbody _ _ _)
    | some r =>
      cases r with
      | none => exact Or.inr rfl
      | some s' => exact ih (Nat.mod_lt _ (by omega))

theorem forWrap_running (hw : w ≤ v.length) (hbody : ∀ i a s, body i a s ≠ none)
    {I : ℕ → σ → Prop} (hstep : ∀ i a s s', I i s → v[i]? = some a →
      body i a s = some (some s') → I ((i + 1) % w) s') {k m : ℕ} :
    ∀ {i : ℕ} {s : σ}, i < w → I i s → forWrap w v body (k + m) i s = none →
      ∃ s', I ((i + k) % w) s' ∧ forWrap w v body m ((i + k) % w) s' = none := by
  induction k with
  | zero =>
    intro i s hi hI h
    rw [Nat.zero_add] at h
    exact ⟨s, by rwa [Nat.add_zero, Nat.mod_eq_of_lt hi],
      by rwa [Nat.add_zero, Nat.mod_eq_of_lt hi]⟩
  | succ k ih =>
    intro i s hi hI h
    have ha : v[i]? = some v[i] := List.getElem?_eq_getElem (by omega)
    rw [Nat.add_right_comm, forWrap_succ ha] at h
    cases hb : body i v[i] s with
    | none => exact absurd hb (hbody _ _ _)
    | some r =>
      rw [hb] at h
      cases r with
      | none => cases h
      | some s' =>
        have hmod : ((i + 1) % w + k) % w = (i + (k + 1)) % w := by
          rw [Nat.mod_add_mod, Nat.add_assoc, Nat.add_comm 1 k]
        rw [← hmod]
        exact ih (Nat.mod_lt _ (by omega)) (hstep _ _ _ _ hI ha hb) h

theorem forWrap_forever (hw : w ≤ v.length) {I : ℕ → σ → Prop}
    (hstep : ∀ i a s, I i s → v[i]? = some a →
      ∃ s', body i a s = some (some s') ∧ I ((i + 1) % w) s') {fuel : ℕ} :
    ∀ {i : ℕ} {s : σ}, i < w → I i s → forWrap w v body fuel i s = none := by
  induction fuel with
  | zero => intro i s _ _; rfl
  | succ fuel ih =>
    intro i s hi hI
    have ha : v[i]? = some v[i] := List.getElem?_eq_getElem (by omega)
    obtain ⟨s', hb, hI'⟩ := hstep i v[i] s hI ha
    rw [forWrap_succ ha, hb]
    exact ih (Nat.mod_lt _ (by omega)) hI'

/-- What does not decrease along a cycle is constant on it. -/
theorem eq_of_cyclic_le (f : ℕ → ℕ) (hf : ∀ k < w, f k ≤ f ((k + 1) % w)) (i : ℕ) (hi : i < w) :
    f i = f 0 := by
  have hmono : ∀ k j, k ≤ j → j < w → f k ≤ f j := by
    intro k j hkj
    induction hkj with
    | refl => intro _; exact Nat.le_refl _
    | @step j _ ih =>
      intro hj
      have hstep := hf j (by omega)
      rw [Nat.mod_eq_of_lt hj] at hstep
      exact Nat.le_trans (ih (by omega)) hstep
  have hback := hf (w - 1) (by omega)
  rw [Nat.sub_add_cancel (by omega), Nat.mod_self] at hback
  exact Nat.le_antisymm (Nat.le_trans (hmono i (w - 1) (by omega) (by omega)) hback)
    (hmono 0 i (Nat.zero_le _) hi)

end Wrap

/-! ### Loops over a growing vector -/

variable {σ : Type}

/-- The loop, at most `fuel` times round; `none` when the fuel runs out. -/
def forSize (size : σ → ℕ) (body : ℕ → σ → σ) : ℕ → ℕ → σ → Option σ
  | 0, _, _ => none
  | fuel + 1, i, s =>
      if i < size s then forSize size body fuel (i + 1) (body i s) else some s

/-- One round of the loop, between loop heads `(i, s)`. -/
def ForStep (size : σ → ℕ) (body : ℕ → σ → σ) (a b : ℕ × σ) : Prop :=
  a.1 < size a.2 ∧ b = (a.1 + 1, body a.1 a.2)

/-- Loop heads a run passes through. -/
def ForSteps (size : σ → ℕ) (body : ℕ → σ → σ) : ℕ × σ → ℕ × σ → Prop :=
  Relation.ReflTransGen (ForStep size body)

variable {size : σ → ℕ} {body : ℕ → σ → σ}

/-- **The loop rule.**  `I` holds at every loop head, and states that satisfy
it have at most `bound` elements; then the loop ends, past the last element. -/
theorem forSize_rule {I : ℕ → σ → Prop} {bound : ℕ}
    (hstep : ∀ i s, I i s → i < size s → I (i + 1) (body i s))
    (hbound : ∀ i s, I i s → size s ≤ bound) :
    ∀ {fuel i : ℕ} {s : σ}, I i s → 0 < fuel → bound < fuel + i →
      ∃ s', forSize size body fuel i s = some s' ∧ ∃ j, I j s' ∧ size s' ≤ j := by
  intro fuel
  induction fuel with
  | zero => intro i s _ h0; exact absurd h0 (by omega)
  | succ fuel ih =>
    intro i s h _ hf
    have hb := hbound i s h
    rw [forSize]
    by_cases hi : i < size s
    · rw [if_pos hi]
      exact ih (hstep i s h hi) (by omega) (by omega)
    · rw [if_neg hi]
      exact ⟨s, rfl, i, h, by omega⟩

/-- What holds at a loop head and is kept by a round holds at every later head. -/
theorem ForSteps.inv {I : ℕ → σ → Prop}
    (hstep : ∀ i s, I i s → i < size s → I (i + 1) (body i s)) {a b : ℕ × σ}
    (h : ForSteps size body a b) (ha : I a.1 a.2) : I b.1 b.2 := by
  induction h with
  | refl => exact ha
  | tail _ hbc ih =>
    obtain ⟨hlt, rfl⟩ := hbc
    exact hstep _ _ ih hlt

theorem forSteps_of_forSize {fuel : ℕ} : ∀ {i : ℕ} {s s' : σ},
    forSize size body fuel i s = some s' →
      ∃ j, ForSteps size body (i, s) (j, s') ∧ size s' ≤ j := by
  induction fuel with
  | zero => intro i s s' h; simp [forSize] at h
  | succ fuel ih =>
    intro i s s' h
    rw [forSize] at h
    by_cases hi : i < size s
    · rw [if_pos hi] at h
      obtain ⟨j, hj, hle⟩ := ih h
      exact ⟨j, Relation.ReflTransGen.head ⟨hi, rfl⟩ hj, hle⟩
    · rw [if_neg hi] at h
      obtain rfl := Option.some.inj h
      exact ⟨i, Relation.ReflTransGen.refl, by omega⟩

/-- **Lockstep.**  A loop whose rounds are, on an image of the state, the rounds
of another loop computes the image of its result. -/
theorem forSize_map {τ : Type} {size' : τ → ℕ} {body' : ℕ → τ → τ} {f : σ → τ}
    {I : ℕ → σ → Prop} (hsize : ∀ s, size' (f s) = size s)
    (hstep : ∀ i s, I i s → i < size s → I (i + 1) (body i s) ∧ f (body i s) = body' i (f s))
    {fuel : ℕ} : ∀ {i : ℕ} {s : σ}, I i s →
      (forSize size body fuel i s).map f = forSize size' body' fuel i (f s) := by
  induction fuel with
  | zero => intro i s _; rfl
  | succ fuel ih =>
    intro i s h
    rw [forSize, forSize, hsize]
    by_cases hi : i < size s
    · obtain ⟨hinv, hf⟩ := hstep i s h hi
      rw [if_pos hi, if_pos hi, ih hinv, hf]
    · rw [if_neg hi, if_neg hi]
      rfl

/-! ### Rounds that may fail -/

def forSizeM (size : σ → ℕ) (body : ℕ → σ → Option σ) : ℕ → ℕ → σ → Option σ
  | 0, _, _ => none
  | fuel + 1, i, s =>
      if i < size s then (body i s).bind (forSizeM size body fuel (i + 1)) else some s

/-- Where the rounds return, it is the loop over what they return. -/
theorem forSizeM_eq {bodyM : ℕ → σ → Option σ} {I : ℕ → σ → Prop}
    (hstep : ∀ i s, I i s → i < size s → I (i + 1) (body i s) ∧ bodyM i s = some (body i s))
    {fuel : ℕ} : ∀ {i : ℕ} {s : σ}, I i s →
      forSizeM size bodyM fuel i s = forSize size body fuel i s := by
  induction fuel with
  | zero => intro i s _; rfl
  | succ fuel ih =>
    intro i s h
    rw [forSizeM, forSize]
    by_cases hi : i < size s
    · obtain ⟨hinv, hbody⟩ := hstep i s h hi
      rw [if_pos hi, if_pos hi, hbody, Option.bind_some, ih hinv]
    · rw [if_neg hi, if_neg hi]

section Fail

variable {α β γ δ : Type}

theorem foldlM_of_fixed {f : β → γ → Option β} {b : β} {l : List γ} (h : ∀ c ∈ l, f b c = some b) :
    l.foldlM f b = some b := by
  induction l with
  | nil => rfl
  | cons c l ih =>
    obtain ⟨hc, hl⟩ := List.forall_mem_cons.mp h
    rw [List.foldlM_cons, hc]
    exact ih hl

/-- Where all rounds of a loop return, rounds that return more return the same. -/
theorem foldlM_mono {f g : β → γ → Option β} (hfg : ∀ b c b', f b c = some b' → g b c = some b')
    {l : List γ} {b b' : β} (h : l.foldlM f b = some b') : l.foldlM g b = some b' := by
  induction l generalizing b with
  | nil => exact h
  | cons c l ih =>
    rw [List.foldlM_cons] at h ⊢
    obtain ⟨b₁, hc, hl⟩ := Option.bind_eq_some_iff.mp h
    exact Option.bind_eq_some_iff.mpr ⟨b₁, hfg _ _ _ hc, ih hl⟩

/-- **A part of the state that the rest does not see.**  If the rounds keep `I` of it, and are
otherwise the rounds of another loop, so is the whole loop. -/
theorem foldlM_carry {I : α → Prop} {f : α × β → γ → Option (α × β)} {f' : β → δ → Option β}
    {g : γ → δ} {l : List γ}
    (hstep : ∀ c ∈ l, ∀ a b, I a → ∃ a', I a' ∧ f (a, b) c = (f' b (g c)).map (fun b => (a', b))) :
    ∀ {a : α} {b : β}, I a →
      ∃ a', I a' ∧ l.foldlM f (a, b) = ((l.map g).foldlM f' b).map (fun b => (a', b)) := by
  induction l with
  | nil => exact fun {a b} ha => ⟨a, ha, rfl⟩
  | cons c l ih =>
    intro a b ha
    obtain ⟨hc, hl⟩ := List.forall_mem_cons.mp hstep
    obtain ⟨a₁, ha₁, h₁⟩ := hc a b ha
    rw [List.foldlM_cons, List.map_cons, List.foldlM_cons, h₁]
    cases f' b (g c) with
    | none => exact ⟨a₁, ha₁, rfl⟩
    | some b₁ => exact ih hl ha₁

end Fail

end Lib
