import Mathlib.Data.List.Basic
import Mathlib.Data.Nat.Notation

/-!
# Paths, lexically

A path is a string whose components stand between slashes.  Resolving it skips
empty components and `.`, and lets `..` undo the component before it; nothing is
looked up.  `strictlyBelow_foldl_join` says that names that are components, joined
to a path, lead strictly below it, and `foldl_join_injective` that other components lead
elsewhere.
-/

namespace Lib

abbrev dotdot : List Char := ['.', '.']

/-- A single path component that names something. -/
def Component (n : List Char) : Prop := n ≠ [] ∧ '/' ∉ n ∧ n ≠ ['.'] ∧ n ≠ dotdot

instance (n : List Char) : Decidable (Component n) := inferInstanceAs (Decidable (_ ∧ _))

/-- `..`: back to where the last component started from.  Nothing is above the root. -/
def leave (rooted : Bool) (st : List (List Char)) : List (List Char) :=
  match st.getLast? with
  | none => if rooted then [] else [dotdot]
  | some c => if c = dotdot then st ++ [dotdot] else st.dropLast

def enter (rooted : Bool) (st : List (List Char)) (c : List Char) : List (List Char) :=
  if c = [] ∨ c = ['.'] then st else if c = dotdot then leave rooted st else st ++ [c]

def rooted (p : List Char) : Bool := p.head? == some '/'

/-- What is left of a path when `.` and `..` are resolved. -/
def resolve (p : List Char) : List (List Char) :=
  (p.splitOn '/').foldl (enter (rooted p)) []

def join (p n : List Char) : List Char := if p = [] then n else p ++ '/' :: n

/-- `p` goes on where `out` ends, with at least one component more. -/
def StrictlyBelow (out p : List Char) : Prop :=
  rooted p = rooted out ∧ ∃ rest, rest ≠ [] ∧ resolve p = resolve out ++ rest

variable {p n out : List Char}

theorem enter_component {st : List (List Char)} {r : Bool} (h : Component n) :
    enter r st n = st ++ [n] := by
  obtain ⟨hne, _, hdot, hdots⟩ := h
  rw [enter, if_neg (not_or.mpr ⟨hne, hdot⟩), if_neg hdots]

theorem rooted_join (h : Component n) : rooted (join p n) = rooted p := by
  obtain ⟨hne, hslash, _⟩ := h
  unfold join
  split
  · rename_i hp
    obtain ⟨c, cs, rfl⟩ := List.exists_cons_of_ne_nil hne
    have hc : c ≠ '/' := fun hc => hslash (by rw [hc]; exact List.mem_cons_self)
    simp [rooted, hp, hc]
  · rename_i hp
    obtain ⟨c, cs, rfl⟩ := List.exists_cons_of_ne_nil hp
    rfl

/-- **Joining a component adds it.** -/
theorem resolve_join (h : Component n) : resolve (join p n) = resolve p ++ [n] := by
  have hsplit : n.splitOn '/' = [n] := List.splitOn_eq_singleton h.2.1
  rw [resolve, rooted_join h]
  by_cases hp : p = []
  · rw [join, if_pos hp, hsplit, hp]
    exact enter_component h
  · rw [join, if_neg hp, List.splitOn_append_cons_self, List.foldl_append, hsplit]
    exact enter_component h

theorem resolve_foldl_join {ns : List (List Char)} (h : ∀ n ∈ ns, Component n) :
    rooted (ns.foldl join p) = rooted p ∧ resolve (ns.foldl join p) = resolve p ++ ns := by
  induction ns generalizing p with
  | nil => exact ⟨rfl, (List.append_nil _).symm⟩
  | cons n ns ih =>
    have hn := h n List.mem_cons_self
    obtain ⟨hroot, hres⟩ := ih (p := join p n) (fun m hm => h m (List.mem_cons_of_mem n hm))
    rw [List.foldl_cons, hroot, hres, rooted_join hn, resolve_join hn, List.append_assoc]
    exact ⟨rfl, rfl⟩

/-- **Components lead strictly below** what they are joined to. -/
theorem strictlyBelow_foldl_join {ns : List (List Char)} (h : ∀ n ∈ ns, Component n)
    (hne : ns ≠ []) : StrictlyBelow out (ns.foldl join out) :=
  ⟨(resolve_foldl_join h).1, ns, hne, (resolve_foldl_join h).2⟩

/-- **Joined components tell the paths apart.** -/
theorem foldl_join_injective {ns ms : List (List Char)} (hns : ∀ n ∈ ns, Component n)
    (hms : ∀ n ∈ ms, Component n) (heq : ns.foldl join p = ms.foldl join p) : ns = ms := by
  have hres := (resolve_foldl_join (p := p) hns).2
  rw [heq, (resolve_foldl_join hms).2] at hres
  exact (List.append_cancel_left hres).symm

example : resolve "/a/./b/../../../c".toList = ["c".toList] := by decide

end Lib
