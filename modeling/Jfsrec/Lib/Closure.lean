import Jfsrec.Lib.Loop
import Mathlib.Data.List.Nodup
import Mathlib.Data.List.Perm.Subperm

/-!
# Growing a list by request

A list of elements with numbers, and a store that `pick` looks a number up in.
Asked for a number that no element of the list has, `request` appends what the
store holds under it.  The loop `forSize List.length (grow ..)` visits all the
elements, also those appended on the way, and every element makes the requests
`ask` gives for it.

`Explored` is what holds at its loop heads: the appended elements come from the
store under distinct new numbers, which bounds the list, and what the visited
elements asked for is there unless the store does not have it.

An `Echo` of an element, with its number and its requests behind it, appends nothing.
-/

namespace Lib

variable {α κ : Type}

variable {num : α → κ} {pick : κ → Option α} {l₀ l l' : List α} {d : κ}

/-! ### What is appended -/

/-- The elements behind `l₀` come from the store, under distinct numbers that `l₀`
lacks. -/
def Grown (num : α → κ) (pick : κ → Option α) (l₀ l : List α) : Prop :=
  ∃ new, l = l₀ ++ new ∧ (new.map num).Nodup ∧
    ∀ a ∈ new, num a ∉ l₀.map num ∧ pick (num a) = some a

/-- Somebody has the number, or the store does not. -/
def Answered (num : α → κ) (pick : κ → Option α) (l : List α) (d : κ) : Prop :=
  d ∈ l.map num ∨ pick d = none

theorem Grown.refl : Grown num pick l l := ⟨[], by simp⟩

theorem Grown.trans (h : Grown num pick l₀ l) (h' : Grown num pick l l') :
    Grown num pick l₀ l' := by
  obtain ⟨new, rfl, hnew, hpick⟩ := h
  obtain ⟨new', rfl, hnew', hpick'⟩ := h'
  refine ⟨new ++ new', List.append_assoc _ _ _, ?_, fun a ha => ?_⟩
  · rw [List.map_append, List.nodup_append]
    refine ⟨hnew, hnew', fun d hd d' hd' => ?_⟩
    obtain ⟨a, ha, rfl⟩ := List.mem_map.mp hd'
    rintro rfl
    exact (hpick' a ha).1 (by rw [List.map_append]; exact List.mem_append_right _ hd)
  · rcases List.mem_append.mp ha with ha | ha
    · exact hpick a ha
    · refine ⟨fun hm => (hpick' a ha).1 ?_, (hpick' a ha).2⟩
      rw [List.map_append]
      exact List.mem_append_left _ hm

theorem Grown.subset (h : Grown num pick l₀ l) : l₀ ⊆ l := by
  obtain ⟨new, rfl, _⟩ := h
  exact List.subset_append_left l₀ new

theorem Grown.known (h : Grown num pick l₀ l) (hd : d ∈ l₀.map num) : d ∈ l.map num :=
  List.map_subset num h.subset hd

theorem Grown.mem (h : Grown num pick l₀ l) {a : α} (ha : a ∈ l) :
    a ∈ l₀ ∨ num a ∉ l₀.map num ∧ pick (num a) = some a := by
  obtain ⟨new, rfl, _, hpick⟩ := h
  rcases List.mem_append.mp ha with ha | ha
  · exact Or.inl ha
  · exact Or.inr (hpick a ha)

theorem Grown.nodup (h : Grown num pick l₀ l) (hd : (l₀.map num).Nodup) : (l.map num).Nodup := by
  obtain ⟨new, rfl, hnew, hpick⟩ := h
  rw [List.map_append, List.nodup_append]
  refine ⟨hd, hnew, fun d hd d' hd' => ?_⟩
  obtain ⟨a, ha, rfl⟩ := List.mem_map.mp hd'
  rintro rfl
  exact (hpick a ha).1 hd

theorem Grown.nodup_list (h : Grown num pick l₀ l) (hd : l₀.Nodup) : l.Nodup := by
  obtain ⟨new, rfl, hnew, hpick⟩ := h
  rw [List.nodup_append]
  refine ⟨hd, hnew.of_map num, fun a ha b hb => ?_⟩
  rintro rfl
  exact (hpick a hb).1 (List.mem_map_of_mem ha)

/-- The list outgrows the store at most by what it started with. -/
theorem Grown.length_le (h : Grown num pick l₀ l) {dom : List α}
    (hdom : ∀ d a, pick d = some a → a ∈ dom) : l.length ≤ l₀.length + dom.length := by
  obtain ⟨new, rfl, hnew, hpick⟩ := h
  have hsub : new ⊆ dom := fun a ha => hdom _ a (hpick a ha).2
  have hle : new.length ≤ dom.length :=
    (List.subperm_of_subset (List.Nodup.of_map num hnew) hsub).length_le
  rw [List.length_append]
  omega

theorem Answered.mono (h : Answered num pick l d) (hg : Grown num pick l l') :
    Answered num pick l' d := by
  rcases h with h | h
  · exact Or.inl (hg.known h)
  · exact Or.inr h

/-! ### The elements before another -/

section Before

variable [DecidableEq α] {a : α}

/-- What stands in a list before the first `a`. -/
def before (l : List α) (a : α) : List α := l.takeWhile (· ≠ a)

theorem before_cons (b : α) (l : List α) (a : α) :
    before (b :: l) a = if b = a then [] else b :: before l a := by
  rw [before, List.takeWhile_cons]
  by_cases h : b = a <;> simp [h, before]

theorem before_append_of_mem (h : a ∈ l) (l' : List α) : before (l ++ l') a = before l a := by
  induction l with
  | nil => cases h
  | cons b l ih =>
    rw [List.cons_append, before_cons, before_cons]
    by_cases hb : b = a
    · rw [if_pos hb, if_pos hb]
    · rw [if_neg hb, if_neg hb, ih ((List.mem_cons.mp h).resolve_left (fun h => hb h.symm))]

theorem before_append_cons (h : a ∉ l) (l' : List α) : before (l ++ a :: l') a = l := by
  induction l with
  | nil => rw [List.nil_append, before_cons, if_pos rfl]
  | cons b l ih =>
    obtain ⟨hb, hl⟩ := not_or.mp (fun hm => h (List.mem_cons.mpr hm))
    rw [List.cons_append, before_cons, if_neg (fun h => hb h.symm), ih hl]

theorem before_append_cons_subset (l l' : List α) (a : α) : before (l ++ a :: l') a ⊆ l := by
  by_cases h : a ∈ l
  · rw [before_append_of_mem h]
    exact (List.takeWhile_sublist _).subset
  · rw [before_append_cons h]
    exact List.Subset.refl l

end Before

/-! ### One request -/

variable [DecidableEq κ] {ask : α → List κ}

def request (num : α → κ) (pick : κ → Option α) (l : List α) (d : κ) : List α :=
  if d ∈ l.map num then l else l ++ (pick d).toList

theorem request_of_known (h : d ∈ l.map num) : request num pick l d = l := if_pos h

theorem request_of_none (h : pick d = none) : request num pick l d = l := by
  rw [request, h]
  split
  · rfl
  · exact List.append_nil l

theorem request_of_some {a : α} (h : d ∉ l.map num) (ha : pick d = some a) :
    request num pick l d = l ++ [a] := by
  rw [request, if_neg h, ha]
  rfl

variable (hnum : ∀ d a, pick d = some a → num a = d)
include hnum

theorem grown_request (l : List α) (d : κ) : Grown num pick l (request num pick l d) := by
  by_cases hd : d ∈ l.map num
  · rw [request_of_known hd]
    exact .refl
  · cases hp : pick d with
    | none =>
      rw [request_of_none hp]
      exact .refl
    | some a =>
      rw [request_of_some hd hp]
      refine ⟨[a], rfl, List.nodup_singleton _, fun b hb => ?_⟩
      rw [List.mem_singleton.mp hb, hnum d a hp]
      exact ⟨hd, hp⟩

theorem answered_request (l : List α) (d : κ) : Answered num pick (request num pick l d) d := by
  by_cases hd : d ∈ l.map num
  · rw [request_of_known hd]
    exact Or.inl hd
  · cases hp : pick d with
    | none => exact Or.inr hp
    | some a =>
      rw [request_of_some hd hp]
      refine Or.inl (List.mem_map.mpr ⟨a, by simp, hnum d a hp⟩)

theorem mem_request {a : α} (ha : a ∈ request num pick l d) : a ∈ l ∨ num a = d := by
  by_cases hd : d ∈ l.map num
  · rw [request_of_known hd] at ha
    exact Or.inl ha
  · cases hp : pick d with
    | none =>
      rw [request_of_none hp] at ha
      exact Or.inl ha
    | some b =>
      rw [request_of_some hd hp] at ha
      rcases List.mem_append.mp ha with ha | ha
      · exact Or.inl ha
      · rw [List.mem_singleton.mp ha]
        exact Or.inr (hnum d b hp)

/-! ### Many requests -/

theorem grown_requests (l : List α) (ds : List κ) :
    Grown num pick l (ds.foldl (request num pick) l) := by
  induction ds generalizing l with
  | nil => exact .refl
  | cons d ds ih => exact (grown_request hnum l d).trans (ih (request num pick l d))

theorem answered_requests (l : List α) (ds : List κ) :
    ∀ d ∈ ds, Answered num pick (ds.foldl (request num pick) l) d := by
  induction ds generalizing l with
  | nil => simp
  | cons d ds ih =>
    intro e he
    rcases List.mem_cons.mp he with rfl | he
    · exact (answered_request hnum l e).mono (grown_requests hnum _ ds)
    · exact ih (request num pick l d) e he

theorem mem_requests {a : α} {ds : List κ} (ha : a ∈ ds.foldl (request num pick) l) :
    a ∈ l ∨ num a ∈ ds := by
  induction ds generalizing l with
  | nil => exact Or.inl ha
  | cons d ds ih =>
    rcases ih ha with h | h
    · rcases mem_request hnum h with h | h
      · exact Or.inl h
      · exact Or.inr (by simp [h])
    · exact Or.inr (List.mem_cons_of_mem d h)

omit hnum in
/-- Where everything asked for is known or missing nothing is appended. -/
theorem requests_of_answered {ds : List κ} (h : ∀ d ∈ ds, Answered num pick l d) :
    ds.foldl (request num pick) l = l := by
  induction ds with
  | nil => rfl
  | cons d ds ih =>
    have hd : request num pick l d = l := by
      rcases h d (by simp) with hd | hd
      · exact request_of_known hd
      · exact request_of_none hd
    rw [List.foldl_cons, hd]
    exact ih (fun e he => h e (List.mem_cons_of_mem d he))

/-! ### The loop -/

/-- The requests of the element at position `i`. -/
def grow (num : α → κ) (pick : κ → Option α) (ask : α → List κ) (i : ℕ) (l : List α) : List α :=
  (l[i]?.elim [] ask).foldl (request num pick) l

/-- The list when all its elements have made their requests, where the store
holds at most `n` elements. -/
def closure (num : α → κ) (pick : κ → Option α) (ask : α → List κ) (n : ℕ) (l : List α) :
    List α :=
  (forSize List.length (grow num pick ask) (l.length + n + 1) 0 l).getD l

omit hnum in
theorem grow_of_get {i : ℕ} {a : α} (hi : l[i]? = some a) :
    grow num pick ask i l = (ask a).foldl (request num pick) l := by
  rw [grow, hi]
  rfl

/-- What holds when the elements before position `i` have made their requests. -/
structure Explored (num : α → κ) (pick : κ → Option α) (ask : α → List κ) (l₀ : List α) (i : ℕ)
    (l : List α) : Prop where
  grown : Grown num pick l₀ l
  answered : ∀ a ∈ l.take i, ∀ d ∈ ask a, Answered num pick l d
  origin : ∀ a ∈ l, a ∈ l₀ ∨ ∃ b ∈ l.take i, num a ∈ ask b

omit hnum [DecidableEq κ] in
theorem explored_start (l : List α) : Explored num pick ask l 0 l :=
  ⟨.refl, by simp, fun _ ha => Or.inl ha⟩

omit hnum [DecidableEq κ] in
theorem take_append_get {new : List α} {i : ℕ} {a : α} (hi : l[i]? = some a) :
    (l ++ new).take (i + 1) = l.take i ++ [a] := by
  obtain ⟨hlt, rfl⟩ := List.getElem?_eq_some_iff.mp hi
  rw [List.take_append_of_le_length (by omega), List.take_succ_eq_append_getElem hlt]

theorem grown_grow (i : ℕ) (l : List α) : Grown num pick l (grow num pick ask i l) :=
  grown_requests hnum l _

theorem take_grow {i : ℕ} (hi : i < l.length) :
    (grow num pick ask i l).take (i + 1) = l.take i ++ [l[i]] := by
  have hg : Grown num pick l (grow num pick ask i l) := grown_grow hnum i l
  obtain ⟨new, hnew, _⟩ := hg
  rw [hnew]
  exact take_append_get (List.getElem?_eq_getElem hi)

omit hnum [DecidableEq κ] in
/-- Past the last element everybody has made his requests. -/
theorem Explored.answered_all (h : Explored num pick ask l₀ l.length l) :
    ∀ a ∈ l, ∀ d ∈ ask a, Answered num pick l d := by
  intro a ha
  apply h.answered
  rwa [List.take_length]

theorem Explored.step {i : ℕ} (h : Explored num pick ask l₀ i l) (hi : i < l.length) :
    Explored num pick ask l₀ (i + 1) (grow num pick ask i l) := by
  have htake : (grow num pick ask i l).take (i + 1) = l.take i ++ [l[i]] := take_grow hnum hi
  rw [grow_of_get (List.getElem?_eq_getElem hi)] at htake ⊢
  have hg := grown_requests hnum l (ask l[i])
  have hall := answered_requests hnum l (ask l[i])
  have hmem : ∀ a ∈ (ask l[i]).foldl (request num pick) l, a ∈ l ∨ num a ∈ ask l[i] :=
    fun a => mem_requests hnum
  refine ⟨h.grown.trans hg, fun a ha => ?_, fun a ha => ?_⟩
  · rw [htake] at ha
    rcases List.mem_append.mp ha with ha | ha
    · exact fun d hd => (h.answered a ha d hd).mono hg
    · rw [List.mem_singleton.mp ha]
      exact hall
  · rw [htake]
    rcases hmem a ha with ha | ha
    · rcases h.origin a ha with h0 | ⟨b, hb, hab⟩
      · exact Or.inl h0
      · exact Or.inr ⟨b, List.mem_append_left _ hb, hab⟩
    · exact Or.inr ⟨l[i], List.mem_append_right _ (List.mem_singleton_self _), ha⟩

/-- **The loop ends, with the closure.** -/
theorem forSize_grow {dom : List α} (hdom : ∀ d a, pick d = some a → a ∈ dom) (l : List α) :
    forSize List.length (grow num pick ask) (l.length + dom.length + 1) 0 l
      = some (closure num pick ask dom.length l) := by
  have hrule : ∃ s,
      forSize List.length (grow num pick ask) (l.length + dom.length + 1) 0 l = some s ∧
      ∃ j, Explored num pick ask l j s ∧ s.length ≤ j :=
    forSize_rule (fun i s h hi => h.step hnum hi) (fun i s h => h.grown.length_le hdom)
      (explored_start l) (by omega) (by omega)
  obtain ⟨s, hs, _⟩ := hrule
  rw [closure, hs]
  rfl

theorem closure_explored {dom : List α} (hdom : ∀ d a, pick d = some a → a ∈ dom) (l : List α) :
    Explored num pick ask l (closure num pick ask dom.length l).length
      (closure num pick ask dom.length l) := by
  have hloop : forSize List.length (grow num pick ask) (l.length + dom.length + 1) 0 l
      = some (closure num pick ask dom.length l) := forSize_grow hnum hdom l
  obtain ⟨j, hsteps, hle⟩ := forSteps_of_forSize hloop
  have h := hsteps.inv (I := Explored num pick ask l) (fun i s h hi => h.step hnum hi)
    (explored_start l)
  have ht : (closure num pick ask dom.length l).take (closure num pick ask dom.length l).length
      = (closure num pick ask dom.length l).take j := by
    rw [List.take_length, List.take_of_length_le hle]
  refine ⟨h.grown, ?_, ?_⟩
  · rw [ht]
    exact h.answered
  · rw [ht]
    exact h.origin

/-! ### An echo -/

/-- The second list has `b` behind the `a` that stands behind `front`. -/
def Echo (front : List α) (a b : α) (l l' : List α) : Prop :=
  ∃ rest, l = front ++ a :: rest ∧ l' = front ++ a :: b :: rest

section Echo

variable {front : List α} {a b : α} {n : ℕ}

omit hnum [DecidableEq κ] in
theorem Echo.length (h : Echo front a b l l') : l'.length = l.length + 1 := by
  obtain ⟨rest, rfl, rfl⟩ := h
  simp [Nat.add_assoc]

omit hnum [DecidableEq κ] in
theorem Echo.lt_length (h : Echo front a b l l') : front.length < l.length := by
  obtain ⟨rest, rfl, _⟩ := h
  simp

omit hnum [DecidableEq κ] in
theorem Echo.get (h : Echo front a b l l') {i : ℕ} (hi : i ≤ front.length) : l'[i]? = l[i]? := by
  obtain ⟨rest, rfl, rfl⟩ := h
  rcases Nat.lt_or_eq_of_le hi with hlt | rfl
  · rw [List.getElem?_append_left hlt, List.getElem?_append_left hlt]
  · simp

omit hnum [DecidableEq κ] in
theorem Echo.get_self (h : Echo front a b l l') : l[front.length]? = some a := by
  obtain ⟨rest, rfl, _⟩ := h
  simp

omit hnum [DecidableEq κ] in
theorem Echo.get_echo (h : Echo front a b l l') : l'[front.length + 1]? = some b := by
  obtain ⟨rest, _, rfl⟩ := h
  simp

omit hnum [DecidableEq κ] in
theorem Echo.get_behind (h : Echo front a b l l') {i : ℕ} (hi : front.length < i) :
    l'[i + 1]? = l[i]? := by
  obtain ⟨rest, rfl, rfl⟩ := h
  obtain ⟨k, rfl⟩ := Nat.exists_eq_add_of_lt hi
  have hleft : front.length + k + 1 - front.length = k + 1 := by omega
  have hright : front.length + k + 1 + 1 - front.length = k + 1 + 1 := by omega
  rw [List.getElem?_append_right (by omega), List.getElem?_append_right (by omega), hleft, hright]
  simp

omit hnum [DecidableEq κ] in
theorem Echo.known_iff (h : Echo front a b l l') (hb : num b = num a) :
    d ∈ l'.map num ↔ d ∈ l.map num := by
  obtain ⟨rest, rfl, rfl⟩ := h
  simp [hb]

omit hnum in
theorem Echo.request (h : Echo front a b l l') (hb : num b = num a) (d : κ) :
    Echo front a b (request num pick l d) (request num pick l' d) := by
  by_cases hd : d ∈ l.map num
  · rw [request_of_known hd, request_of_known ((h.known_iff hb).mpr hd)]
    exact h
  · rw [Lib.request, Lib.request, if_neg hd, if_neg (mt (h.known_iff hb).mp hd)]
    obtain ⟨rest, rfl, rfl⟩ := h
    exact ⟨rest ++ (pick d).toList, by simp, by simp⟩

omit hnum in
theorem Echo.requests (hb : num b = num a) (ds : List κ) :
    ∀ {l l' : List α}, Echo front a b l l' →
      Echo front a b (ds.foldl (Lib.request num pick) l) (ds.foldl (Lib.request num pick) l') := by
  induction ds with
  | nil => exact fun {l l'} h => h
  | cons d ds ih => exact fun {l l'} h => ih (h.request hb d)

omit hnum in
/-- Behind `b` the loops are in step. -/
theorem Echo.forSize_behind (hb : num b = num a) {fuel : ℕ} :
    ∀ {i : ℕ} {l l' s : List α}, Echo front a b l l' → front.length < i →
      forSize List.length (grow num pick ask) fuel i l = some s →
        ∃ s', forSize List.length (grow num pick ask) fuel (i + 1) l' = some s' ∧
          Echo front a b s s' := by
  induction fuel with
  | zero => exact fun {i l l' s} _ _ hs => by cases hs
  | succ fuel ih =>
    intro i l l' s h hi hs
    rw [forSize] at hs ⊢
    by_cases hlt : i < l.length
    · rw [if_pos hlt] at hs
      rw [if_pos (by rw [h.length]; omega)]
      refine ih ?_ (by omega) hs
      rw [grow, grow, h.get_behind hi]
      exact h.requests hb _
    · rw [if_neg hlt] at hs
      rw [if_neg (by rw [h.length]; omega)]
      obtain rfl := Option.some.inj hs
      exact ⟨l', rfl, h⟩

/-- Up to `a` they are, and `b` asks for nothing that `a` has not asked for. -/
theorem Echo.forSize_upto (hb : num b = num a) (hask : ask b = ask a) {fuel : ℕ} :
    ∀ {i : ℕ} {l l' s : List α}, Echo front a b l l' → i ≤ front.length →
      forSize List.length (grow num pick ask) fuel i l = some s →
        ∃ s', forSize List.length (grow num pick ask) (fuel + 1) i l' = some s' ∧
          Echo front a b s s' := by
  induction fuel with
  | zero => exact fun {i l l' s} _ _ hs => by cases hs
  | succ fuel ih =>
    intro i l l' s h hi hs
    have hlt := h.lt_length
    rw [forSize, if_pos (by omega)] at hs
    rw [forSize, if_pos (by rw [h.length]; omega)]
    have hgrow : Echo front a b (grow num pick ask i l) (grow num pick ask i l') := by
      rw [grow, grow, h.get hi]
      exact h.requests hb _
    rcases Nat.lt_or_eq_of_le hi with hi | rfl
    · exact ih hgrow (by omega) hs
    · have hall : ∀ d ∈ ask b, Answered num pick (grow num pick ask front.length l') d := by
        rw [hask, grow_of_get ((h.get (Nat.le_refl _)).trans h.get_self)]
        exact answered_requests hnum l' (ask a)
      have hstay : grow num pick ask (front.length + 1) (grow num pick ask front.length l')
          = grow num pick ask front.length l' := by
        rw [grow_of_get hgrow.get_echo, requests_of_answered hall]
      have hlt' := hgrow.lt_length
      rw [forSize, if_pos (by rw [hgrow.length]; omega), hstay]
      exact hgrow.forSize_behind hb (by omega) hs

/-- **An element that repeats the number and the requests of the one before it** changes
nothing else in the closure. -/
theorem Echo.closure (h : Echo front a b l l') (hb : num b = num a) (hask : ask b = ask a)
    {dom : List α} (hdom : ∀ d a, pick d = some a → a ∈ dom) :
    Echo front a b (closure num pick ask dom.length l) (closure num pick ask dom.length l') := by
  have hloop : forSize List.length (grow num pick ask) (l.length + dom.length + 1) 0 l
      = some (Lib.closure num pick ask dom.length l) := forSize_grow hnum hdom l
  have hloop' : forSize List.length (grow num pick ask) (l'.length + dom.length + 1) 0 l'
      = some (Lib.closure num pick ask dom.length l') := forSize_grow hnum hdom l'
  obtain ⟨s', hs', hecho⟩ := h.forSize_upto hnum hb hask (Nat.zero_le _) hloop
  have hfuel : l.length + dom.length + 1 + 1 = l'.length + dom.length + 1 := by
    rw [h.length]
    omega
  rw [hfuel, hloop'] at hs'
  rw [Option.some.inj hs']
  exact hecho

omit hnum [DecidableEq κ] in
/-- Before any other element stands what stood before it, and `b` where `a` does. -/
theorem Echo.mem_before [DecidableEq α] (h : Echo front a b l l') (ha : a ∉ front) {x : α}
    (hx : x ≠ b) {c : α} : c ∈ before l' x ↔ c ∈ before l x ∨ c = b ∧ a ∈ before l x := by
  obtain ⟨rest, rfl, rfl⟩ := h
  induction front with
  | nil =>
    rw [List.nil_append, List.nil_append, before_cons, before_cons, before_cons,
      if_neg (fun hb : b = x => hx hb.symm)]
    by_cases ha : a = x
    · simp [ha]
    · simp only [if_neg ha, List.mem_cons, true_or, and_true]
      tauto
  | cons d front ih =>
    rw [List.cons_append, List.cons_append, before_cons, before_cons]
    obtain ⟨had, ha⟩ := not_or.mp (fun hm => ha (List.mem_cons.mpr hm))
    by_cases hd : d = x
    · simp [hd]
    · simp only [if_neg hd, List.mem_cons, ih ha]
      tauto

end Echo

end Lib
