import Mathlib.Data.Nat.Notation

/-!
# Exceptions

What a call does whose function may raise exceptions of type `ε`: it returns, it
raises one, or it ends the program.  A dynamic exception specification lets some
exceptions out and turns every other one into the end of the program, `spec`; a
handler takes care of some and lets the others pass, `handle`.
-/

namespace Lib

inductive Outcome (ε α : Type)
  | ret (a : α)
  | raise (e : ε)
  | terminate
deriving DecidableEq, Repr

namespace Outcome

variable {ε α β : Type}

def bind (o : Outcome ε α) (f : α → Outcome ε β) : Outcome ε β :=
  match o with
  | ret a => f a
  | raise e => raise e
  | terminate => terminate

instance : Monad (Outcome ε) where
  pure := ret
  bind := bind

def spec (allowed : ε → Bool) : Outcome ε α → Outcome ε α
  | ret a => ret a
  | raise e => if allowed e then raise e else terminate
  | terminate => terminate

def handle (caught : ε → Bool) (handler : ε → Outcome ε α) : Outcome ε α → Outcome ε α
  | ret a => ret a
  | raise e => if caught e then handler e else raise e
  | terminate => terminate

def isRet : Outcome ε α → Bool
  | ret _ => true
  | _ => false

@[simp] theorem isRet_spec (allowed : ε → Bool) (o : Outcome ε α) :
    (o.spec allowed).isRet = o.isRet := by
  cases o with
  | ret a => rfl
  | raise e =>
    rw [spec]
    split <;> rfl
  | terminate => rfl

theorem isRet_iff {o : Outcome ε α} : o.isRet = true ↔ ∃ a, o = ret a := by
  cases o with
  | ret a => exact ⟨fun _ => ⟨a, rfl⟩, fun _ => rfl⟩
  | raise e => simp [isRet]
  | terminate => simp [isRet]

@[simp] theorem bind_ret (a : α) (f : α → Outcome ε β) : (ret a >>= f) = f a := rfl

@[simp] theorem bind_raise (e : ε) (f : α → Outcome ε β) : (raise e >>= f) = raise e := rfl

theorem bind_eq_ret {o : Outcome ε α} {f : α → Outcome ε β} {b : β} :
    (o >>= f) = ret b ↔ ∃ a, o = ret a ∧ f a = ret b := by
  cases o with
  | ret a => simp
  | raise e =>
    rw [bind_raise]
    refine ⟨?_, ?_⟩
    · intro h
      cases h
    · rintro ⟨_, h, _⟩
      cases h
  | terminate =>
    refine ⟨?_, ?_⟩
    · intro h
      cases h
    · rintro ⟨_, h, _⟩
      cases h

/-! ### What a call raises -/

/-- A call that returns, or raises an exception in `p`. -/
def RaisesOnly (p : ε → Bool) : Outcome ε α → Prop
  | ret _ => True
  | raise e => p e
  | terminate => False

section RaisesOnly

variable {p : ε → Bool} {o : Outcome ε α}

theorem RaisesOnly.bind {f : α → Outcome ε β} (ho : o.RaisesOnly p)
    (hf : ∀ a, (f a).RaisesOnly p) : (o >>= f).RaisesOnly p := by
  cases o with
  | ret a => exact hf a
  | raise e => exact ho
  | terminate => exact ho

/-- A specification that lists what a call raises leaves the call as it is. -/
theorem RaisesOnly.spec_eq (ho : o.RaisesOnly p) : o.spec p = o := by
  cases o with
  | ret a => rfl
  | raise e => exact if_pos ho
  | terminate => rfl

/-- A call within a handler returns exactly if the handler catches what the call raises. -/
theorem isRet_handle_iff {c : ε → α} :
    (o.handle p (fun e => ret (c e))).isRet = true ↔ o.RaisesOnly p := by
  cases o with
  | ret a => exact ⟨fun _ => trivial, fun _ => rfl⟩
  | raise e =>
    rw [handle]
    split
    · rename_i h
      exact ⟨fun _ => h, fun _ => rfl⟩
    · rename_i h
      exact ⟨fun hret => Bool.noConfusion hret, fun hp => absurd hp h⟩
  | terminate => exact ⟨fun h => Bool.noConfusion h, fun h => h.elim⟩

end RaisesOnly

/-! ### Loops -/

/-- Calls `f` on one after another until a call does not return: how the loop ends, and which
calls it has made; `none` when a call does not end. -/
def forEach {σ : Type} (f : α → σ → Option (Outcome ε σ)) :
    List α → σ → Option (Outcome ε σ × List α)
  | [], s => some (ret s, [])
  | a :: l, s =>
      match f a s with
      | none => none
      | some (ret s) => (forEach f l s).map (fun r => (r.1, a :: r.2))
      | some (raise e) => some (raise e, [a])
      | some terminate => some (terminate, [a])

/-- **A loop returns after all calls exactly if every call returns**, where the state does not
matter for that. -/
theorem forEach_eq_ret_iff {σ : Type} {f : α → σ → Option (Outcome ε σ)} {P : α → Prop}
    {l : List α} (h : ∀ a ∈ l, ∀ s, (∃ s', f a s = some (ret s')) ↔ P a) (s : σ) :
    (∃ s', forEach f l s = some (ret s', l)) ↔ ∀ a ∈ l, P a := by
  induction l generalizing s with
  | nil => exact ⟨fun _ => List.forall_mem_nil P, fun _ => ⟨s, rfl⟩⟩
  | cons a l ih =>
    rw [List.forall_mem_cons, ← h a List.mem_cons_self s]
    refine ⟨?_, ?_⟩
    · rintro ⟨s', hs'⟩
      rw [forEach] at hs'
      split at hs'
      · cases hs'
      · rename_i t ht
        obtain ⟨⟨o, l'⟩, hl', heq⟩ := Option.map_eq_some_iff.mp hs'
        cases heq
        exact ⟨⟨t, ht⟩, (ih (fun b hb => h b (List.mem_cons_of_mem _ hb)) t).mp ⟨s', hl'⟩⟩
      · cases hs'
      · cases hs'
    · rintro ⟨⟨t, ht⟩, hall⟩
      obtain ⟨s', hs'⟩ := (ih (fun b hb => h b (List.mem_cons_of_mem _ hb)) t).mpr hall
      refine ⟨s', ?_⟩
      rw [forEach, ht]
      dsimp only
      rw [hs']
      rfl

/-- For finitely many, enough for each is enough for all. -/
theorem exists_forall_mem_iff {P : ℕ → α → Prop} {l : List α}
    (hmono : ∀ a m n, m ≤ n → P m a → P n a) :
    (∃ n, ∀ a ∈ l, P n a) ↔ ∀ a ∈ l, ∃ n, P n a := by
  refine ⟨?_, ?_⟩
  · rintro ⟨n, h⟩ a ha
    exact ⟨n, h a ha⟩
  · intro h
    induction l with
    | nil => exact ⟨0, List.forall_mem_nil _⟩
    | cons a l ih =>
      obtain ⟨m, hm⟩ := h a List.mem_cons_self
      obtain ⟨n, hn⟩ := ih (fun b hb => h b (List.mem_cons_of_mem _ hb))
      refine ⟨max m n, List.forall_mem_cons.mpr ⟨?_, fun b hb => ?_⟩⟩
      · exact hmono a m _ (Nat.le_max_left m n) hm
      · exact hmono b n _ (Nat.le_max_right m n) (hn b hb)

end Outcome

end Lib
