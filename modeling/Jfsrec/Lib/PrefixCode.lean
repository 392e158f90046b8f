import Mathlib.Data.List.Infix
import Mathlib.Logic.Nontrivial.Defs

/-!
# Prefix codes

A code in which no word begins another can be read back: a text has one way to be cut into
words, `PrefixCode.flatMap_injective`.
-/

namespace Lib

variable {α β : Type}

/-- No word begins another. -/
def PrefixCode (code : α → List β) : Prop := ∀ a b, code a <+: code b → a = b

namespace PrefixCode

variable {code : α → List β}

theorem ne_nil [Nontrivial α] (h : PrefixCode code) (a : α) : code a ≠ [] := by
  intro hnil
  obtain ⟨b, hb⟩ := exists_ne a
  exact hb (h a b (hnil ▸ List.nil_prefix)).symm

theorem head_eq (h : PrefixCode code) {a b : α} {r s : List β}
    (heq : code a ++ r = code b ++ s) : a = b := by
  have ha : code a <+: code b ++ s := ⟨r, heq⟩
  have hb : code b <+: code b ++ s := List.prefix_append _ _
  rcases List.prefix_or_prefix_of_prefix ha hb with hab | hba
  · exact h a b hab
  · exact (h b a hba).symm

/-- **A text is cut into words in one way.** -/
theorem flatMap_injective [Nontrivial α] (h : PrefixCode code) :
    Function.Injective (List.flatMap code) := by
  intro as
  induction as with
  | nil =>
    rintro (_ | ⟨b, bs⟩) heq
    · rfl
    · exact absurd (List.append_eq_nil_iff.mp heq.symm).1 (h.ne_nil b)
  | cons a as ih =>
    rintro (_ | ⟨b, bs⟩) heq
    · exact absurd (List.append_eq_nil_iff.mp heq).1 (h.ne_nil a)
    · rw [List.flatMap_cons, List.flatMap_cons] at heq
      obtain rfl := h.head_eq heq
      rw [ih (List.append_cancel_left heq)]

end PrefixCode

end Lib
