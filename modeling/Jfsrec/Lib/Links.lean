import Mathlib.Data.Set.Finite.List
import Mathlib.Order.WellFounded
import Mathlib.Logic.Relation

/-!
# Links

Five facts about links.  When entries are written one after another into the
cells their targets name, a cell ends with what the last entry for it says,
`foldl_assign`.  When links are also entered in the list of whom they lead to, and
never taken out, the lists agree with the last links exactly if nobody is linked
twice, `count_eq_last_iff`.  Along a relation without cycles, on finitely many elements, there
is induction, `induction_of_acyclic`.  And when every element links to at most one
other, following the links from an element either ends or runs into a cycle: among
finitely many elements every chain `Ends` exactly if there is no cycle,
`forall_ends_iff`.  A walk that remembers what it has seen stops in any case,
`climb_isSome`, and where the chain ends if it does, `climb_of_ends`.
-/

namespace Lib

/-! ### The last write -/

section Assign

variable {α β ε : Type} [DecidableEq α] {target : ε → Option α} {val : ε → β}

def assign (target : ε → Option α) (val : ε → β) (f : α → β) (e : ε) : α → β :=
  match target e with
  | some a => Function.update f a (val e)
  | none => f

theorem assign_of_some {f : α → β} {e : ε} {a : α} (h : target e = some a) :
    assign target val f e = Function.update f a (val e) := by
  simp only [assign, h]

theorem assign_of_none {f : α → β} {e : ε} (h : target e = none) :
    assign target val f e = f := by
  simp only [assign, h]

theorem assign_congr {target' : ε → Option α} {f : α → β} {e : ε} (h : target e = target' e) :
    assign target val f e = assign target' val f e := by
  rw [assign, assign, h]

theorem foldl_assign_congr {target' : ε → Option α} {f : α → β} {es : List ε}
    (h : ∀ e ∈ es, target e = target' e) :
    es.foldl (assign target val) f = es.foldl (assign target' val) f :=
  List.foldl_ext _ _ f (fun _ e he => assign_congr (h e he))

def lastFor (target : ε → Option α) (es : List ε) (a : α) : Option ε :=
  (es.filter (fun e => target e = some a)).getLast?

theorem lastFor_append (es : List ε) (e : ε) (a : α) :
    lastFor target (es ++ [e]) a = if target e = some a then some e else lastFor target es a := by
  rw [lastFor, List.filter_append]
  by_cases h : target e = some a
  · rw [if_pos h, List.filter_cons_of_pos (by simpa using h), List.filter_nil, List.getLast?_concat]
  · rw [if_neg h, List.filter_cons_of_neg (by simpa using h), List.filter_nil, List.append_nil,
      lastFor]

theorem lastFor_append_list (es es' : List ε) (a : α) :
    lastFor target (es ++ es') a = (lastFor target es' a).or (lastFor target es a) := by
  rw [lastFor, List.filter_append, List.getLast?_append]
  rfl

theorem lastFor_mem {es : List ε} {e : ε} {a : α} (h : lastFor target es a = some e) :
    e ∈ es ∧ target e = some a := by
  simpa using List.mem_of_getLast? h

theorem lastFor_eq_none {es : List ε} {a : α} :
    lastFor target es a = none ↔ ∀ e ∈ es, target e ≠ some a := by
  simp [lastFor]

theorem lastFor_map {δ : Type} {g : δ → ε} (ds : List δ) (a : α) :
    lastFor target (ds.map g) a = (lastFor (fun d => target (g d)) ds a).map g := by
  rw [lastFor, lastFor, List.filter_map, List.getLast?_map]
  rfl

/-- **The last write wins.** -/
theorem foldl_assign (es : List ε) (f : α → β) (a : α) :
    es.foldl (assign target val) f a = (lastFor target es a).elim (f a) val := by
  induction es using List.reverseRecOn with
  | nil => rfl
  | append_singleton es e ih =>
    rw [List.foldl_append, List.foldl_cons, List.foldl_nil, lastFor_append]
    cases ht : target e with
    | none =>
      rw [assign_of_none ht, if_neg (by simp), ih]
    | some b =>
      rw [assign_of_some ht]
      by_cases hb : b = a
      · subst hb
        rw [if_pos rfl, Function.update_self]
        rfl
      · rw [if_neg (by simpa using hb), Function.update_of_ne (fun h => hb h.symm), ih]

end Assign

/-! ### Lists of members -/

section Enlist

variable {α β : Type} [DecidableEq α] [DecidableEq β]

/-- The first is entered in the list of the second. -/
def enlist (f : β → List α) (e : α × β) : β → List α := Function.update f e.2 (f e.2 ++ [e.1])

theorem count_foldl_enlist (es : List (α × β)) (f : β → List α) (a : α) (b : β) :
    (es.foldl enlist f b).count a = (f b).count a + es.count (a, b) := by
  induction es generalizing f with
  | nil => rfl
  | cons e es ih =>
    rw [List.foldl_cons, ih, List.count_cons]
    by_cases hb : b = e.2
    · subst hb
      have heq : (e == (a, e.2)) = (e.1 == a) := by
        rw [Bool.eq_iff_iff, beq_iff_eq, beq_iff_eq, Prod.ext_iff]
        exact and_iff_left rfl
      rw [enlist, Function.update_self, List.count_append, List.count_singleton, heq]
      omega
    · have hne : e ≠ (a, b) := fun h => hb (congrArg Prod.snd h).symm
      rw [enlist, Function.update_of_ne hb, if_neg (by simpa using hne)]
      omega

/-- Where `a` was entered, one after another. -/
def ownersOf (es : List (α × β)) (a : α) : List β := (es.filter (fun e => e.1 = a)).map Prod.snd

omit [DecidableEq β] in
theorem ownersOf_append (es es' : List (α × β)) (a : α) :
    ownersOf (es ++ es') a = ownersOf es a ++ ownersOf es' a := by
  rw [ownersOf, List.filter_append, List.map_append]
  rfl

omit [DecidableEq β] in
theorem ownersOf_flatMap {γ : Type} (l : List γ) (f : γ → List (α × β)) (a : α) :
    ownersOf (l.flatMap f) a = l.flatMap (fun c => ownersOf (f c) a) := by
  rw [ownersOf, List.filter_flatMap, List.map_flatMap]
  rfl

omit [DecidableEq β] in
theorem mem_ownersOf {es : List (α × β)} {a : α} {b : β} : b ∈ ownersOf es a ↔ (a, b) ∈ es := by
  simp [ownersOf]

theorem count_ownersOf (es : List (α × β)) (a : α) (b : β) :
    (ownersOf es a).count b = es.count (a, b) := by
  induction es with
  | nil => rfl
  | cons e es ih =>
    rw [List.count_cons, ← ih, ownersOf]
    by_cases he : e.1 = a
    · subst he
      rw [List.filter_cons_of_pos (by simp), List.map_cons, List.count_cons, ownersOf]
      have heq : (e == (e.1, b)) = (e.2 == b) := by
        rw [Bool.eq_iff_iff, beq_iff_eq, beq_iff_eq, Prod.ext_iff]
        exact and_iff_right rfl
      rw [heq]
    · have hne : e ≠ (a, b) := fun h => he (congrArg Prod.fst h)
      rw [List.filter_cons_of_neg (by simpa using he), if_neg (by simpa using hne)]
      rfl

/-- **Every owner has it once, and that is the last one, exactly if there is one owner
at most.**  Only owners in `s` are looked at, and there are no others. -/
theorem count_eq_last_iff {bs : List β} {s : Set β} (hs : ∀ b ∈ bs, b ∈ s) :
    (∀ b ∈ s, bs.count b = if bs.getLast? = some b then 1 else 0) ↔ bs.length ≤ 1 := by
  rcases List.eq_nil_or_concat bs with rfl | ⟨init, d, rfl⟩
  · simp
  · rw [List.concat_eq_append] at hs ⊢
    rw [List.getLast?_concat]
    constructor
    · intro h
      -- an earlier owner would be the last one again, or not be it
      rcases List.eq_nil_or_concat init with rfl | ⟨init', b, rfl⟩
      · simp
      · have hb := h b (hs b (by simp))
        rw [List.concat_eq_append, List.count_append, List.count_append, List.count_singleton_self,
          List.count_singleton] at hb
        by_cases hd : d = b
        · subst hd
          rw [if_pos (beq_self_eq_true d), if_pos rfl] at hb
          omega
        · rw [if_neg (by simpa using hd), if_neg (by simpa using hd)] at hb
          omega
    · intro h b _
      rw [List.length_append, List.length_singleton] at h
      obtain rfl : init = [] := List.eq_nil_of_length_eq_zero (by omega)
      rw [List.nil_append, List.count_singleton]
      simp

end Enlist

/-! ### Relations without cycles -/

/-- **Induction along a relation without cycles**, on a finite set that it does not leave. -/
theorem induction_of_acyclic {α : Type} {r : α → α → Prop} {s : Set α} {P : α → Prop}
    (hfin : s.Finite) (hclosed : ∀ a ∈ s, ∀ b, r a b → b ∈ s)
    (hacyclic : ¬ ∃ a ∈ s, Relation.TransGen r a a)
    (hstep : ∀ a ∈ s, (∀ b, r a b → P b) → P a) : ∀ a ∈ s, P a := by
  -- backwards, and in several steps at once, the relation is well-founded on the set
  let t : s → s → Prop := fun b a => Relation.TransGen r a.1 b.1
  have hfinite : Finite s := hfin.to_subtype
  have htrans : IsTrans s t := ⟨fun _ _ _ hba hcb => hcb.trans hba⟩
  have hirr : Std.Irrefl t := ⟨fun a hc => hacyclic ⟨a.1, a.2, hc⟩⟩
  have hwf : WellFounded t := Finite.wellFounded_of_trans_of_irrefl t
  have hall : ∀ a : s, P a.1 := by
    intro a
    induction a using hwf.induction with
    | _ a ih =>
      exact hstep a.1 a.2 (fun b hab => ih ⟨b, hclosed a.1 a.2 b hab⟩ (.single hab))
  intro a ha
  exact hall ⟨a, ha⟩

/-! ### Chains -/

section Chain

variable {α : Type}

/-- Following `f` from `a` comes, after finitely many links, to an element that
links to nothing or to itself. -/
inductive Ends (f : α → Option α) : α → Prop
  | root {a : α} (h : f a = none) : Ends f a
  | self {a : α} (h : f a = some a) : Ends f a
  | link {a b : α} (h : f a = some b) (hb : Ends f b) : Ends f a

def Link (f : α → Option α) (a b : α) : Prop := f a = some b ∧ a ≠ b

variable {f : α → Option α} {a b : α} {l : List α}

/-- What a chain that ends passes through lies on no cycle. -/
theorem Ends.not_cycle (h : Ends f a) : ¬ Relation.TransGen (Link f) a a := by
  induction h with
  | root h =>
    intro hc
    obtain ⟨b, ⟨hb, _⟩, _⟩ := Relation.TransGen.head'_iff.mp hc
    rw [h] at hb
    cases hb
  | self h =>
    intro hc
    obtain ⟨b, ⟨hb, hne⟩, _⟩ := Relation.TransGen.head'_iff.mp hc
    rw [h] at hb
    exact hne (Option.some.inj hb)
  | link h _ ih =>
    intro hc
    obtain ⟨b, ⟨hb, hne⟩, hba⟩ := Relation.TransGen.head'_iff.mp hc
    obtain rfl := Option.some.inj (h.symm.trans hb)
    exact ih (Relation.TransGen.tail' hba ⟨h, hne⟩)

theorem ends_of_ends_link (hab : f a = some b) (h : ∀ c, Link f a c → Ends f c) : Ends f a := by
  by_cases he : a = b
  · subst he
    exact .self hab
  · exact .link hab (h b ⟨hab, he⟩)

/-- **Among finitely many elements that link to each other, all chains end exactly
if there is no cycle.** -/
theorem forall_ends_iff (hclosed : ∀ a ∈ l, ∀ b, f a = some b → b ∈ l) :
    (∀ a ∈ l, Ends f a) ↔ ¬ ∃ a ∈ l, Relation.TransGen (Link f) a a := by
  refine ⟨fun h => ?_, fun h => ?_⟩
  · rintro ⟨a, ha, hc⟩
    exact (h a ha).not_cycle hc
  · refine induction_of_acyclic (List.finite_toSet l) ?_ h ?_
    · intro a ha b hab
      exact hclosed a ha b hab.1
    · intro a ha ih
      cases hf : f a with
      | none => exact .root hf
      | some b => exact ends_of_ends_link hf ih

/-- The chain from `a` ends at `r`. -/
def EndsAt (f : α → Option α) (a r : α) : Prop :=
  Relation.ReflTransGen (Link f) a r ∧ (f r = none ∨ f r = some r)

theorem not_link_of_end {r : α} (hr : f r = none ∨ f r = some r) : ¬ Link f r b := by
  rintro ⟨hb, hne⟩
  rcases hr with hr | hr
  · rw [hr] at hb
    cases hb
  · rw [hr] at hb
    exact hne (Option.some.inj hb)

theorem endsAt_link {r : α} (hab : Link f a b) (h : EndsAt f b r) : EndsAt f a r :=
  ⟨.head hab h.1, h.2⟩

theorem EndsAt.of_link {r : α} (h : EndsAt f a r) (hab : Link f a b) : EndsAt f b r := by
  obtain ⟨hreach, hr⟩ := h
  rcases Relation.ReflTransGen.cases_head hreach with rfl | ⟨c, hac, hcr⟩
  · exact absurd hab (not_link_of_end hr)
  · obtain rfl := Option.some.inj (hab.1.symm.trans hac.1)
    exact ⟨hcr, hr⟩

end Chain

/-! ### Climbing -/

section Climb

variable {α : Type} [DecidableEq α] {f : α → Option α} {a b r : α} {l visited : List α}

/-- From `a` along `f`, until there is no link or it leads to what was visited;
`none` when the fuel runs out. -/
def climb (f : α → Option α) : ℕ → List α → α → Option α
  | 0, _, _ => none
  | fuel + 1, visited, a =>
      match f a with
      | none => some a
      | some b => if b ∈ visited then some a else climb f fuel (visited ++ [b]) b

/-- **A climb among finitely many elements stops**, since no element is visited twice. -/
theorem climb_isSome (hclosed : ∀ a ∈ l, ∀ b, f a = some b → b ∈ l) (fuel : ℕ) :
    ∀ {visited : List α} {a : α}, visited.Nodup → visited ⊆ l → a ∈ l →
      l.length < fuel + visited.length → (climb f fuel visited a).isSome := by
  induction fuel with
  | zero =>
    intro visited a hnodup hsub _ hfuel
    have hle := (List.subperm_of_subset hnodup hsub).length_le
    omega
  | succ fuel ih =>
    intro visited a hnodup hsub ha hfuel
    unfold climb
    cases hf : f a with
    | none => rfl
    | some b =>
      show (if b ∈ visited then some a else climb f fuel (visited ++ [b]) b).isSome
      have hb : b ∈ l := hclosed a ha b hf
      split_ifs with hseen
      · rfl
      · refine ih ?_ ?_ hb ?_
        · exact List.nodup_append.mpr ⟨hnodup, List.nodup_singleton b, by
            rintro x hx y hy rfl
            exact hseen (List.mem_singleton.mp hy ▸ hx)⟩
        · exact List.append_subset.mpr ⟨hsub, by simpa using hb⟩
        · rw [List.length_append, List.length_singleton]
          omega

/-- Once it has stopped, more fuel changes nothing. -/
theorem climb_mono {fuel : ℕ} : ∀ {visited : List α} {a : α}, climb f fuel visited a = some r →
    ∀ {fuel' : ℕ}, fuel ≤ fuel' → climb f fuel' visited a = some r := by
  induction fuel with
  | zero => intro _ _ h; cases h
  | succ fuel ih =>
    intro visited a h fuel' hle
    obtain ⟨k, rfl⟩ : ∃ k, fuel' = k + 1 := ⟨fuel' - 1, by omega⟩
    unfold climb at h ⊢
    cases hf : f a with
    | none => rw [hf] at h; exact h
    | some b =>
      rw [hf] at h
      dsimp only at h ⊢
      split_ifs at h ⊢ with hseen
      · exact h
      · exact ih h (by omega)

theorem climb_reaches {fuel : ℕ} : ∀ {visited : List α} {a : α},
    climb f fuel visited a = some r → Relation.ReflTransGen (fun a b => f a = some b) a r := by
  induction fuel with
  | zero => intro _ _ h; cases h
  | succ fuel ih =>
    intro visited a h
    unfold climb at h
    cases hf : f a with
    | none =>
      rw [hf] at h
      exact Option.some.inj h ▸ .refl
    | some b =>
      rw [hf] at h
      dsimp only at h
      split_ifs at h with hseen
      · exact Option.some.inj h ▸ .refl
      · exact .head hf (ih h)

/-- **Where the chain ends, the climb stops at its end.**  All that was visited leads
to where the climb stands, so only a cycle could stop it earlier. -/
theorem climb_of_ends {fuel : ℕ} : ∀ {visited : List α} {a : α}, Ends f a →
    a ∈ visited → (∀ x ∈ visited, Relation.ReflTransGen (Link f) x a) →
    climb f fuel visited a = some r → EndsAt f a r := by
  induction fuel with
  | zero => intro _ _ _ _ _ h; cases h
  | succ fuel ih =>
    intro visited a hends hself hseen h
    unfold climb at h
    cases hf : f a with
    | none =>
      rw [hf] at h
      obtain rfl := Option.some.inj h
      exact ⟨.refl, Or.inl hf⟩
    | some b =>
      rw [hf] at h
      dsimp only at h
      split_ifs at h with hb
      · -- the link leads back, which without a cycle it does to `a` only
        obtain rfl := Option.some.inj h
        refine ⟨.refl, Or.inr ?_⟩
        by_contra hne
        have hlink : Link f a b := ⟨hf, fun hab => hne (hab ▸ hf)⟩
        exact hends.not_cycle (Relation.TransGen.head' hlink (hseen b hb))
      · have hlink : Link f a b := ⟨hf, fun hab => hb (hab ▸ hself)⟩
        have hendsb : Ends f b := by
          cases hends with
          | root hn => rw [hf] at hn; cases hn
          | self hs => exact absurd (Option.some.inj (hf.symm.trans hs)) (Ne.symm hlink.2)
          | link hc hce => exact Option.some.inj (hf.symm.trans hc) ▸ hce
        refine endsAt_link hlink (ih hendsb (by simp) ?_ h)
        intro x hx
        rcases List.mem_append.mp hx with hx | hx
        · exact .tail (hseen x hx) hlink
        · exact List.mem_singleton.mp hx ▸ .refl

end Climb

end Lib
