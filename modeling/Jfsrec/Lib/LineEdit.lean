import Jfsrec.Lib.Istream

/-!
# Deleting lines from a text

`hasLine w` is what `grep` tells of a text and an expression that matches the line `w` and no other;
`deleteLine w` is what an editor leaves that deletes what the expression matches.  On a text of
numbers, one a line, this is membership and a filter: `hasLine_lines`, `deleteLine_lines`.
-/

namespace Lib

/-- The lines of a text, with their newlines.  The last line need not have one. -/
def cutLines : List Char → List (List Char)
  | [] => []
  | c :: t =>
      if c = '\n' then ['\n'] :: cutLines t
      else
        match cutLines t with
        | [] => [[c]]
        | l :: ls => (c :: l) :: ls

def chomp (l : List Char) : List Char := if l.getLast? = some '\n' then l.dropLast else l

def hasLine (w t : List Char) : Bool := (cutLines t).any (fun l => chomp l == w)

def deleteLine (w t : List Char) : List Char :=
  ((cutLines t).filter (fun l => chomp l != w)).flatten

variable {w t : List Char} {ns : List ℕ} {n : ℕ}

theorem cutLines_append (hw : '\n' ∉ w) :
    cutLines (w ++ '\n' :: t) = (w ++ ['\n']) :: cutLines t := by
  induction w with
  | nil => rw [List.nil_append, cutLines, if_pos rfl, List.nil_append]
  | cons c w ih =>
    obtain ⟨hc, hw⟩ := not_or.mp (mt List.mem_cons.mpr hw)
    rw [List.cons_append, cutLines, if_neg (Ne.symm hc), ih hw]
    rfl

theorem chomp_append (w : List Char) : chomp (w ++ ['\n']) = w := by
  rw [chomp, List.getLast?_concat, if_pos rfl, List.dropLast_concat]

namespace Istream

theorem newline_not_mem_toDigits (n : ℕ) : '\n' ∉ Nat.toDigits 10 n := by
  intro h
  exact absurd (isDigit_toDigits _ h) (by decide)

theorem toDigits_inj {m n : ℕ} : Nat.toDigits 10 m = Nat.toDigits 10 n ↔ m = n := by
  constructor
  · intro h
    rw [← Nat.ofDigitChars_ten_toDigits (n := m), h, Nat.ofDigitChars_ten_toDigits]
  · rintro rfl
    rfl

theorem cutLines_lines (ns : List ℕ) :
    cutLines (lines ns) = ns.map (fun n => Nat.toDigits 10 n ++ ['\n']) := by
  induction ns with
  | nil => rfl
  | cons n ns ih => rw [lines_cons, cutLines_append (newline_not_mem_toDigits n), ih, List.map_cons]

theorem lines_inj {ms ns : List ℕ} : lines ms = lines ns ↔ ms = ns := by
  constructor
  · intro h
    have hcut := congrArg cutLines h
    rw [cutLines_lines, cutLines_lines] at hcut
    refine List.map_injective_iff.mpr (fun m n hmn => ?_) hcut
    exact toDigits_inj.mp (List.append_cancel_right hmn)
  · rintro rfl
    rfl

theorem lines_eq_nil : lines ns = [] ↔ ns = [] := by
  rw [← lines_nil, lines_inj]

theorem hasLine_lines : hasLine (Nat.toDigits 10 n) (lines ns) = true ↔ n ∈ ns := by
  rw [hasLine, cutLines_lines, List.any_map, List.any_eq_true]
  simp only [Function.comp, chomp_append, beq_iff_eq, toDigits_inj]
  exact ⟨fun ⟨m, hm, he⟩ => he ▸ hm, fun h => ⟨n, h, rfl⟩⟩

theorem deleteLine_lines :
    deleteLine (Nat.toDigits 10 n) (lines ns) = lines (ns.filter (fun m => m != n)) := by
  have hlines : ∀ ms : List ℕ,
      lines ms = (ms.map (fun m => Nat.toDigits 10 m ++ ['\n'])).flatten := by
    intro ms
    rw [lines, List.flatMap_def]
  rw [deleteLine, cutLines_lines, hlines, List.filter_map]
  congr 2
  refine List.filter_congr (fun m _ => ?_)
  rw [Function.comp, chomp_append, Bool.eq_iff_iff, bne_iff_ne, bne_iff_ne, ne_eq, ne_eq,
    toDigits_inj]

end Istream

end Lib
