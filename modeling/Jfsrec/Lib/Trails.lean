import Jfsrec.Lib.Links

/-!
# Trails

Where every element links to at most one other and has a label, the trail of an
element are the labels from the end of its chain down to it.  Two elements share
a trail where they share a place and a label, and so all trails are different
exactly if no two elements do that: `trails_injective_iff`.  Where links to one
element are turned to another, the trails below go with them: `Trail.moved`.
-/

namespace Lib

variable {α β : Type}

/-- The labels along the chain from its end to `a`. -/
inductive Trail (f : α → Option α) (label : α → β) : α → List β → Prop
  | root {a : α} (h : f a = none) : Trail f label a [label a]
  | self {a : α} (h : f a = some a) : Trail f label a [label a]
  | link {a b : α} {ns : List β} (h : f a = some b) (hne : b ≠ a) (hb : Trail f label b ns) :
      Trail f label a (ns ++ [label a])

def place [DecidableEq α] (f : α → Option α) (a : α) : Option α := (f a).filter (· ≠ a)

variable {f : α → Option α} {label : α → β} {a b : α} {ns ms : List β}

theorem Trail.ne_nil (h : Trail f label a ns) : ns ≠ [] := by
  cases h with
  | root _ => simp
  | self _ => simp
  | link _ _ _ => simp

theorem exists_trail (label : α → β) (h : Ends f a) : ∃ ns, Trail f label a ns := by
  induction h with
  | root h => exact ⟨_, .root h⟩
  | self h => exact ⟨_, .self h⟩
  | @link a b h _ ih =>
    by_cases hba : b = a
    · subst hba
      exact ⟨_, .self h⟩
    · obtain ⟨ns, hns⟩ := ih
      exact ⟨_, .link h hba hns⟩

theorem Trail.ends (h : Trail f label a ns) : Ends f a := by
  induction h with
  | root h => exact .root h
  | self h => exact .self h
  | link h _ _ ih => exact .link h ih

theorem Trail.exists_above (h : Trail f label a ns) (hms : ms <+: ns) (hne : ms ≠ []) :
    ∃ b, Trail f label b ms ∧ Relation.ReflTransGen (fun a b => f a = some b) a b := by
  have hone : ∀ {a : α}, Trail f label a [label a] → ms <+: [label a] →
      ∃ b, Trail f label b ms ∧ Relation.ReflTransGen (fun a b => f a = some b) a b := by
    intro a ha hms
    rcases List.prefix_concat_iff.mp (show ms <+: [] ++ [label a] from hms) with rfl | hnil
    · exact ⟨a, ha, .refl⟩
    · exact absurd (List.prefix_nil.mp hnil) hne
  induction h with
  | root h => exact hone (.root h) hms
  | self h => exact hone (.self h) hms
  | link h hba hb ih =>
    rcases List.prefix_concat_iff.mp hms with rfl | hms
    · exact ⟨_, .link h hba hb, .refl⟩
    · obtain ⟨c, hc, hreach⟩ := ih hms
      exact ⟨c, hc, .head h hreach⟩

theorem Trail.congr_label {l : List α} {label' : α → β}
    (hclosed : ∀ a ∈ l, ∀ b, f a = some b → b ∈ l) (heq : ∀ a ∈ l, label a = label' a)
    (h : Trail f label a ns) (ha : a ∈ l) : Trail f label' a ns := by
  induction h with
  | root h =>
    rw [heq _ ha]
    exact .root h
  | self h =>
    rw [heq _ ha]
    exact .self h
  | link h hne _ ih =>
    rw [heq _ ha]
    exact .link h hne (ih (hclosed _ ha _ h))

/-- What all labels on the chain have, all of the trail has. -/
theorem Trail.forall_mem {l : List α} {P : β → Prop}
    (hclosed : ∀ a ∈ l, ∀ b, f a = some b → b ∈ l) (hP : ∀ a ∈ l, P (label a))
    (h : Trail f label a ns) (ha : a ∈ l) : ∀ n ∈ ns, P n := by
  induction h with
  | root h => exact List.forall_mem_singleton.mpr (hP _ ha)
  | self h => exact List.forall_mem_singleton.mpr (hP _ ha)
  | link h _ _ ih =>
    intro n hn
    rcases List.mem_append.mp hn with hn | hn
    · exact ih (hclosed _ ha _ h) n hn
    · rw [List.mem_singleton.mp hn]
      exact hP _ ha

section Place

variable [DecidableEq α]

theorem place_of_none (h : f a = none) : place f a = none := by
  rw [place, h]
  rfl

theorem place_of_self (h : f a = some a) : place f a = none := by
  rw [place, h, Option.filter_some, if_neg (by simp)]

theorem place_of_link (h : f a = some b) (hne : b ≠ a) : place f a = some b := by
  rw [place, h, Option.filter_some, if_pos (by simpa using hne)]

/-- A trail ends in the label of its element, and the rest is the trail of its place. -/
theorem Trail.last (h : Trail f label a ns) : ∃ init, ns = init ++ [label a] ∧
    (place f a = none ∧ init = [] ∨ ∃ b, place f a = some b ∧ Trail f label b init) := by
  cases h with
  | root h => exact ⟨[], rfl, Or.inl ⟨place_of_none h, rfl⟩⟩
  | self h => exact ⟨[], rfl, Or.inl ⟨place_of_self h, rfl⟩⟩
  | @link _ b ns h hne hb => exact ⟨ns, rfl, Or.inr ⟨b, place_of_link h hne, hb⟩⟩

theorem Trail.unique (h : Trail f label a ns) : ∀ {ms : List β}, Trail f label a ms → ns = ms := by
  induction h with
  | root h =>
    intro ms hm
    obtain ⟨init, rfl, ⟨_, rfl⟩ | ⟨b, hb, _⟩⟩ := hm.last
    · rfl
    · rw [place_of_none h] at hb
      cases hb
  | self h =>
    intro ms hm
    obtain ⟨init, rfl, ⟨_, rfl⟩ | ⟨b, hb, _⟩⟩ := hm.last
    · rfl
    · rw [place_of_self h] at hb
      cases hb
  | link h hne _ ih =>
    intro ms hm
    obtain ⟨init, rfl, ⟨hb, _⟩ | ⟨b, hb, hinit⟩⟩ := hm.last
    · rw [place_of_link h hne] at hb
      cases hb
    · rw [place_of_link h hne] at hb
      obtain rfl := Option.some.inj hb
      rw [ih hinit]

/-- Elements with the same place and the same label have the same trail. -/
theorem Trail.congr (h : Trail f label a ns) (hplace : place f a = place f b)
    (hlabel : label a = label b) (hb : Trail f label b ms) : ns = ms := by
  obtain ⟨init, rfl, ha'⟩ := h.last
  obtain ⟨init', rfl, hb'⟩ := hb.last
  rw [hplace] at ha'
  rw [hlabel]
  rcases ha' with ⟨hnone, rfl⟩ | ⟨c, hc, hinit⟩
  · rcases hb' with ⟨_, rfl⟩ | ⟨c, hc, _⟩
    · rfl
    · rw [hnone] at hc
      cases hc
  · rcases hb' with ⟨hnone, _⟩ | ⟨c', hc', hinit'⟩
    · rw [hc] at hnone
      cases hnone
    · rw [hc] at hc'
      obtain rfl := Option.some.inj hc'
      rw [hinit.unique hinit']

theorem mem_of_place {l : List α} (hclosed : ∀ a ∈ l, ∀ b, f a = some b → b ∈ l) (ha : a ∈ l)
    (hb : place f a = some b) : b ∈ l :=
  hclosed a ha b (Option.filter_eq_some_iff.mp hb).1

/-- Where place and label tell elements apart, so do trails. -/
theorem Trail.injective {l : List α} (hclosed : ∀ a ∈ l, ∀ b, f a = some b → b ∈ l)
    (hinj : ∀ a ∈ l, ∀ b ∈ l, place f a = place f b → label a = label b → a = b) (ns : List β) :
    ∀ {a b : α}, a ∈ l → b ∈ l → Trail f label a ns → Trail f label b ns → a = b := by
  induction ns using List.reverseRecOn with
  | nil => intro a b _ _ h; exact absurd rfl h.ne_nil
  | append_singleton ns n ih =>
    intro a b ha hb hta htb
    obtain ⟨init, heq, hta⟩ := hta.last
    obtain ⟨rfl, hla⟩ := List.append_inj' heq rfl
    obtain ⟨init', heq', htb⟩ := htb.last
    obtain ⟨rfl, hlb⟩ := List.append_inj' heq' rfl
    have hlabel : label a = label b := (List.cons.inj hla).1.symm.trans (List.cons.inj hlb).1
    rcases hta with ⟨hpa, hnil⟩ | ⟨c, hpa, hc⟩
    · rcases htb with ⟨hpb, _⟩ | ⟨d, _, hd⟩
      · exact hinj a ha b hb (hpa.trans hpb.symm) hlabel
      · exact absurd hnil hd.ne_nil
    · rcases htb with ⟨_, hnil⟩ | ⟨d, hpb, hd⟩
      · exact absurd hnil hc.ne_nil
      · obtain rfl := ih (mem_of_place hclosed ha hpa) (mem_of_place hclosed hb hpb) hc hd
        exact hinj a ha b hb (hpa.trans hpb.symm) hlabel

/-- **All trails are different exactly if no two elements share place and label.** -/
theorem trails_injective_iff (label : α → β) {l : List α}
    (hclosed : ∀ a ∈ l, ∀ b, f a = some b → b ∈ l)
    (hends : ∀ a ∈ l, Ends f a) :
    (∀ a ∈ l, ∀ b ∈ l, ∀ ns, Trail f label a ns → Trail f label b ns → a = b) ↔
      ∀ a ∈ l, ∀ b ∈ l, place f a = place f b → label a = label b → a = b := by
  constructor
  · intro h a ha b hb hplace hlabel
    obtain ⟨ns, hns⟩ := exists_trail label (hends a ha)
    obtain ⟨ms, hms⟩ := exists_trail label (hends b hb)
    obtain rfl := hns.congr hplace hlabel hms
    exact h a ha b hb ns hns hms
  · intro h a ha b hb ns hns hms
    exact Trail.injective hclosed h ns ha hb hns hms

end Place

/-! ### Trails that are moved -/

section Moved

variable {f' : α → Option α} {label' : α → β} {M : α → Prop} {l : List α} {p q : α}
  {ps qs : List β}

/-- The links of the elements `M`, which lead to `p` in `f`, lead to `q` in `f'`. -/
structure Moves (f f' : α → Option α) (M : α → Prop) (p q : α) : Prop where
  moved : ∀ a, M a → a ≠ p ∧ a ≠ q ∧ f a = some p ∧ f' a = some q
  kept : ∀ a, a ≠ q → ¬ M a → f' a = f a

/-- The chain goes on from an element of `M`. -/
def Through (f : α → Option α) (M : α → Prop) (a : α) : Prop :=
  ∃ m, Relation.ReflTransGen (fun a b => f a = some b) a m ∧ M m

theorem through_cons (h : f a = some b) (hb : Through f M b) : Through f M a := by
  obtain ⟨m, hreach, hm⟩ := hb
  exact ⟨m, .head h hreach, hm⟩

theorem Through.of_cons (h : f a = some b) (hM : ¬ M a) (ha : Through f M a) : Through f M b := by
  obtain ⟨m, hreach, hm⟩ := ha
  rcases Relation.ReflTransGen.cases_head hreach with rfl | ⟨c, hc, hreach⟩
  · exact absurd hm hM
  · obtain rfl := Option.some.inj (h.symm.trans hc)
    exact ⟨m, hreach, hm⟩

/-- The trail of an element further up the chain is a beginning of the trail. -/
theorem Trail.prefix_of_reach [DecidableEq α] (ht : Trail f label a ns)
    (hreach : Relation.ReflTransGen (fun a b => f a = some b) a b) (hb : Trail f label b ms) :
    ms <+: ns := by
  induction hreach using Relation.ReflTransGen.head_induction_on generalizing ns with
  | refl => rw [hb.unique ht]
  | @head a c hlink _ ih =>
    by_cases hca : c = a
    · subst hca
      exact ih ht
    · obtain ⟨init, rfl, ⟨hnone, _⟩ | ⟨d, hd, hinit⟩⟩ := ht.last
      · rw [place_of_link hlink hca] at hnone
        cases hnone
      · rw [place_of_link hlink hca] at hd
        obtain rfl := Option.some.inj hd
        exact (ih hinit).trans (List.prefix_append _ _)

theorem Moves.not_through (h : Moves f f' M p q) (ha : f a = none ∨ f a = some a) :
    ¬ Through f M a := by
  rintro ⟨m, hreach, hm⟩
  have hsame : m = a := by
    clear hm
    induction hreach with
    | refl => rfl
    | tail _ hlink ih =>
      subst ih
      rcases ha with ha | ha
      · rw [ha] at hlink
        cases hlink
      · exact (Option.some.inj (ha.symm.trans hlink)).symm
  subst hsame
  obtain ⟨hne, _, hlink, _⟩ := h.moved m hm
  rcases ha with ha | ha
  · rw [ha] at hlink
    cases hlink
  · exact hne (Option.some.inj (ha.symm.trans hlink))

variable (h : Moves f f' M p q) (hclosed : ∀ a ∈ l, ∀ b, f a = some b → b ∈ l) (hq : q ∉ l)
  (hlabel : ∀ a ∈ l, label' a = label a)
include h hclosed hq hlabel

/-- **A chain that is not moved** has the trail it had. -/
theorem Trail.kept (ht : Trail f label a ns) (ha : a ∈ l) (hkeep : ¬ Through f M a) :
    Trail f' label' a ns := by
  induction ht with
  | @root a hroot =>
    rw [← hlabel a ha]
    exact .root ((h.kept a (fun heq => hq (heq ▸ ha)) (fun hM => hkeep ⟨a, .refl, hM⟩)).trans hroot)
  | @self a hself =>
    rw [← hlabel a ha]
    exact .self ((h.kept a (fun heq => hq (heq ▸ ha)) (fun hM => hkeep ⟨a, .refl, hM⟩)).trans hself)
  | @link a b ns hlink hne _ ih =>
    rw [← hlabel a ha]
    refine .link
      ((h.kept a (fun heq => hq (heq ▸ ha)) (fun hM => hkeep ⟨a, .refl, hM⟩)).trans hlink)
      hne (ih (hclosed a ha b hlink) (fun hb => hkeep (through_cons hlink hb)))

/-- **A chain that is moved** goes on below `q` as it did below `p`. -/
theorem Trail.moved [DecidableEq α] (hp : Trail f label p ps) (hcopy : Trail f' label' q qs)
    (ht : Trail f label a ns) (ha : a ∈ l) (hthrough : Through f M a) :
    ∃ rest, rest ≠ [] ∧ ns = ps ++ rest ∧ Trail f' label' a (qs ++ rest) := by
  induction ht with
  | root hroot => exact absurd hthrough (h.not_through (Or.inl hroot))
  | self hself => exact absurd hthrough (h.not_through (Or.inr hself))
  | @link a b ns hlink hne hb ih =>
    by_cases hM : M a
    · obtain ⟨-, hneq, hlink', hmoved⟩ := h.moved a hM
      obtain rfl := Option.some.inj (hlink.symm.trans hlink')
      refine ⟨[label a], List.cons_ne_nil _ _, by rw [hp.unique hb], ?_⟩
      rw [← hlabel a ha]
      exact .link hmoved (Ne.symm hneq) hcopy
    · obtain ⟨rest, _, rfl, htrail⟩ := ih (hclosed a ha b hlink) (hthrough.of_cons hlink hM)
      refine ⟨rest ++ [label a], by simp, by rw [List.append_assoc], ?_⟩
      rw [← List.append_assoc, ← hlabel a ha]
      exact .link ((h.kept a (fun heq => hq (heq ▸ ha)) hM).trans hlink) hne htrail

end Moved

end Lib
