import Mathlib.Algebra.Group.Nat.Defs
import Mathlib.Data.List.Basic

/-!
# Reading numbers from a text stream

The part of an input stream that programs writing one number a line rely on:
`extract` is formatted extraction of an unsigned integer of `w` bits, with the
two flags it sets, and `whileNotEof` is the loop

    while (!f.eof()) { f >> v; body(v); }

which tests the flag *before* the read.  `whileNotEof_of_values` separates such
a loop into the numbers it reads and the runs of its body, and `values_lines`
and `values_lines_digits` say which numbers it reads from a text of lines: with
the final newline in place it goes round once more than there are lines.
-/

namespace Lib

/-- A stream: the characters not yet read, and the flags. -/
structure Istream where
  rest : List Char
  eofbit : Bool
  failbit : Bool
deriving DecidableEq, Repr

namespace Istream

def isSpace (c : Char) : Bool := c.isWhitespace || c == '\x0b' || c == '\x0c'

/-- A successful open clears the flags; a failed one sets `failbit` and leaves
`eofbit` as it was. -/
def openFile (f : Istream) : Option (List Char) → Istream
  | some t => ⟨t, false, false⟩
  | none => { f with failbit := true }

/-- `f >> v` for an unsigned integer of `w` bits.  White space is skipped; when
nothing is left after it the target keeps its value. -/
def extract (w : ℕ) (f : Istream) (v : ℕ) : ℕ × Istream :=
  if f.eofbit || f.failbit then (v, { f with failbit := true })
  else
    let t := f.rest.dropWhile isSpace
    if t = [] then (v, ⟨[], true, true⟩)
    else
      let ds := t.takeWhile Char.isDigit
      let r := t.dropWhile Char.isDigit
      if ds = [] then (0, ⟨r, false, true⟩)
      else if 2 ^ w ≤ Nat.ofDigitChars 10 ds 0 then (2 ^ w - 1, ⟨r, r.isEmpty, true⟩)
      else (Nat.ofDigitChars 10 ds 0, ⟨r, r.isEmpty, false⟩)

variable {σ ε : Type}

/-- `while (!f.eof()) { f >> v; body(v); }`, at most `fuel` times round; `stuck`
is the outcome of a loop that never ends.  A read that leaves `eofbit` and
`failbit` clear consumes a character, so `f.rest.length + 2` is enough fuel for
every loop that ends. -/
def whileNotEof (w : ℕ) (stuck : ε) (body : ℕ → σ → Except ε Unit × σ) :
    ℕ → Istream → ℕ → σ → Except ε (Istream × ℕ) × σ
  | 0, _, _, s => (.error stuck, s)
  | fuel + 1, f, v, s =>
      if f.eofbit then (.ok (f, v), s)
      else
        match body (f.extract w v).1 s with
        | (.error e, s') => (.error e, s')
        | (.ok _, s') => whileNotEof w stuck body fuel (f.extract w v).2 (f.extract w v).1 s'

def values (w : ℕ) : ℕ → Istream → ℕ → Option (List ℕ × Istream × ℕ)
  | 0, _, _ => none
  | fuel + 1, f, v =>
      if f.eofbit then some ([], f, v)
      else (values w fuel (f.extract w v).2 (f.extract w v).1).map
        (fun r => ((f.extract w v).1 :: r.1, r.2))

def runAll (body : ℕ → σ → Except ε Unit × σ) : List ℕ → σ → Except ε Unit × σ
  | [], s => (.ok (), s)
  | n :: ns, s =>
      match body n s with
      | (.error e, s') => (.error e, s')
      | (.ok _, s') => runAll body ns s'

/-- **A reading loop is its numbers, then its body on each of them.** -/
theorem whileNotEof_of_values {w : ℕ} {stuck : ε} {body : ℕ → σ → Except ε Unit × σ} :
    ∀ {fuel : ℕ} {f : Istream} {v : ℕ} {ns : List ℕ} {f' : Istream} {v' : ℕ} (s : σ),
      values w fuel f v = some (ns, f', v') →
      whileNotEof w stuck body fuel f v s =
        ((runAll body ns s).1.map (fun _ => (f', v')), (runAll body ns s).2) := by
  intro fuel
  induction fuel with
  | zero => intro f v ns f' v' s h; simp [values] at h
  | succ fuel ih =>
    intro f v ns f' v' s h
    rw [values] at h
    by_cases he : f.eofbit
    · rw [if_pos he] at h
      obtain ⟨rfl, rfl, rfl⟩ := by simpa using h
      rw [whileNotEof, if_pos he]
      rfl
    · rw [if_neg he, Option.map_eq_some_iff] at h
      obtain ⟨⟨ms, g⟩, hr, hms⟩ := h
      obtain ⟨rfl, rfl⟩ := by simpa using hms
      rw [whileNotEof, if_neg he, runAll]
      rcases hb : body (f.extract w v).1 s with ⟨_ | _, s'⟩
      · rfl
      · exact ih s' hr

/-- A reading loop that ends normally read some numbers, and its body ended
normally on each of them. -/
theorem whileNotEof_ok {w : ℕ} {stuck : ε} {body : ℕ → σ → Except ε Unit × σ} :
    ∀ {fuel : ℕ} {f : Istream} {v : ℕ} {s s' : σ} {r : Istream × ℕ},
      whileNotEof w stuck body fuel f v s = (.ok r, s') →
      ∃ ns, values w fuel f v = some (ns, r) ∧ runAll body ns s = (.ok (), s') := by
  intro fuel
  induction fuel with
  | zero => intro f v s s' r h; cases h
  | succ fuel ih =>
    intro f v s s' r h
    rw [whileNotEof] at h
    rw [values]
    by_cases he : f.eofbit
    · rw [if_pos he] at h ⊢
      cases h
      exact ⟨[], rfl, rfl⟩
    · rw [if_neg he] at h ⊢
      rcases hb : body (f.extract w v).1 s with ⟨_ | _, s1⟩
      · rw [hb] at h; cases h
      · rw [hb] at h
        obtain ⟨ns, h1, h2⟩ := ih h
        refine ⟨(f.extract w v).1 :: ns, by rw [h1]; rfl, ?_⟩
        rw [runAll, hb]
        exact h2

theorem whileNotEof_inv {w : ℕ} {stuck : ε} {body : ℕ → σ → Except ε Unit × σ} {P : σ → Prop}
    (hbody : ∀ n s, P s → P (body n s).2) : ∀ (fuel : ℕ) (f : Istream) (v : ℕ) {s : σ}, P s →
      P (whileNotEof w stuck body fuel f v s).2 := by
  intro fuel
  induction fuel with
  | zero => exact fun _ _ _ h => h
  | succ fuel ih =>
    intro f v s h
    rw [whileNotEof]
    by_cases he : f.eofbit
    · rw [if_pos he]
      exact h
    · rw [if_neg he]
      have h' := hbody (f.extract w v).1 s h
      rcases hb : body (f.extract w v).1 s with ⟨_ | _, s'⟩
      · rw [hb] at h'
        exact h'
      · rw [hb] at h'
        exact ih _ _ h'

/-! ### Texts of lines -/

/-- One number a line, each line ended by a newline. -/
def lines (ns : List ℕ) : List Char := ns.flatMap (fun n => Nat.toDigits 10 n ++ ['\n'])

@[simp] theorem lines_nil : lines [] = [] := rfl

theorem lines_cons (n : ℕ) (ns : List ℕ) :
    lines (n :: ns) = Nat.toDigits 10 n ++ '\n' :: lines ns := by
  simp [lines]

theorem lines_append (ms ns : List ℕ) : lines (ms ++ ns) = lines ms ++ lines ns := by
  simp [lines]

theorem length_le_lines (ns : List ℕ) : ns.length ≤ (lines ns).length := by
  induction ns with
  | nil => simp
  | cons n ns ih => rw [lines_cons]; simp; omega

theorem isSpace_newline : isSpace '\n' = true := by decide

theorem not_isSpace_of_isDigit {c : Char} (h : c.isDigit = true) : isSpace c = false := by
  simp only [Char.isDigit, Bool.and_eq_true, decide_eq_true_eq] at h
  have h48 : 48 ≤ c.toNat := h.1
  have hne : ∀ d : Char, d.toNat < 48 → (c == d) = false := by
    intro d hd
    rw [beq_eq_false_iff_ne]
    intro e
    rw [e] at h48
    omega
  simp only [isSpace, Char.isWhitespace, Bool.or_eq_false_iff]
  refine ⟨⟨⟨⟨⟨?_, ?_⟩, ?_⟩, ?_⟩, ?_⟩, ?_⟩ <;> exact hne _ (by decide)

theorem span_class {p : Char → Bool} {ds r : List Char} (hd : ∀ c ∈ ds, p c = true)
    (hr : ∀ c ∈ r.head?, p c = false) :
    (ds ++ r).takeWhile p = ds ∧ (ds ++ r).dropWhile p = r := by
  rw [List.takeWhile_append_of_pos hd, List.dropWhile_append_of_pos hd]
  cases r with
  | nil => simp
  | cons c r => simp [hr c (by simp)]

/-- Reading a number that stands after white space. -/
theorem extract_number {w v : ℕ} {sp ds r : List Char} (hs : ∀ c ∈ sp, isSpace c = true)
    (hne : ds ≠ []) (hd : ∀ c ∈ ds, c.isDigit = true) (hr : ∀ c ∈ r.head?, c.isDigit = false)
    (hv : Nat.ofDigitChars 10 ds 0 < 2 ^ w) :
    extract w ⟨sp ++ (ds ++ r), false, false⟩ v
      = (Nat.ofDigitChars 10 ds 0, ⟨r, r.isEmpty, false⟩) := by
  obtain ⟨c, ds', rfl⟩ := List.exists_cons_of_ne_nil hne
  have hsp : (sp ++ (c :: ds' ++ r)).dropWhile isSpace = c :: ds' ++ r :=
    (span_class hs (by
      intro x hx
      obtain rfl : c = x := by simpa using hx
      exact not_isSpace_of_isDigit (hd c (by simp)))).2
  simp only [extract, hsp, (span_class hd hr).1, (span_class hd hr).2]
  rw [if_neg (by simp), if_neg (by simp), if_neg (by simp), if_neg (by omega)]

/-- At the end of the text the target keeps its value. -/
theorem extract_spaces {w v : ℕ} {sp : List Char} (hs : ∀ c ∈ sp, isSpace c = true) :
    extract w ⟨sp, false, false⟩ v = (v, ⟨[], true, true⟩) := by
  have h := (span_class (r := []) hs (by simp)).2
  rw [List.append_nil] at h
  simp [extract, h]

theorem isDigit_toDigits {n : ℕ} : ∀ c ∈ Nat.toDigits 10 n, c.isDigit = true :=
  fun _ hc => Nat.isDigit_of_mem_toDigits (by decide) (by decide) hc

/-- **Lines that are all complete are read once too often**: the last number is
handed to the body again, or, from an empty text, whatever the target held. -/
theorem values_lines {w : ℕ} : ∀ (ns : List ℕ) (sp : List Char) (v fuel : ℕ),
    (∀ c ∈ sp, isSpace c = true) → (∀ n ∈ ns, n < 2 ^ w) → ns.length + 2 ≤ fuel →
    values w fuel ⟨sp ++ lines ns, false, false⟩ v
      = some (ns ++ [ns.getLastD v], ⟨[], true, true⟩, ns.getLastD v) := by
  intro ns
  induction ns with
  | nil =>
    intro sp v fuel hs _ hf
    obtain ⟨k, rfl⟩ : ∃ k, fuel = k + 2 := ⟨fuel - 2, by simp at hf; omega⟩
    rw [lines_nil, List.append_nil, values, if_neg (by simp), extract_spaces hs, values]
    simp
  | cons n ns ih =>
    intro sp v fuel hs hn hf
    obtain ⟨k, rfl⟩ : ∃ k, fuel = k + 1 := ⟨fuel - 1, by simp at hf; omega⟩
    rw [lines_cons, values, if_neg (by simp),
      extract_number hs Nat.toDigits_ne_nil isDigit_toDigits (by simp)
        (by rw [Nat.ofDigitChars_ten_toDigits]; exact hn n (by simp)),
      Nat.ofDigitChars_ten_toDigits]
    have h := ih ['\n'] n k (by simp [isSpace_newline])
      (fun m hm => hn m (List.mem_cons_of_mem n hm)) (by simp at hf; omega)
    rw [List.singleton_append] at h
    simp only [List.isEmpty_cons, h, Option.map_some]
    cases ns <;> rfl

/-- **A last line without its newline ends the loop in time**: what stands there
is read as a number, and the loop is over. -/
theorem values_lines_digits {w : ℕ} : ∀ (ns : List ℕ) (sp ds : List Char) (v fuel : ℕ),
    (∀ c ∈ sp, isSpace c = true) → (∀ n ∈ ns, n < 2 ^ w) → ds ≠ [] →
    (∀ c ∈ ds, c.isDigit = true) → Nat.ofDigitChars 10 ds 0 < 2 ^ w → ns.length + 2 ≤ fuel →
    values w fuel ⟨sp ++ (lines ns ++ ds), false, false⟩ v
      = some (ns ++ [Nat.ofDigitChars 10 ds 0], ⟨[], true, false⟩, Nat.ofDigitChars 10 ds 0) := by
  intro ns
  induction ns with
  | nil =>
    intro sp ds v fuel hs _ hne hd hv hf
    obtain ⟨k, rfl⟩ : ∃ k, fuel = k + 2 := ⟨fuel - 2, by simp at hf; omega⟩
    have he := extract_number (v := v) (r := []) hs hne hd (by simp) hv
    rw [List.append_nil] at he
    rw [lines_nil, List.nil_append, values, if_neg (by simp), he, values]
    simp
  | cons n ns ih =>
    intro sp ds v fuel hs hn hne hd hv hf
    obtain ⟨k, rfl⟩ : ∃ k, fuel = k + 1 := ⟨fuel - 1, by simp at hf; omega⟩
    rw [lines_cons, List.append_assoc, values, if_neg (by simp), List.cons_append,
      extract_number hs Nat.toDigits_ne_nil isDigit_toDigits (by simp)
        (by rw [Nat.ofDigitChars_ten_toDigits]; exact hn n (by simp)),
      Nat.ofDigitChars_ten_toDigits]
    have h := ih ['\n'] ds n k (by simp [isSpace_newline])
      (fun m hm => hn m (List.mem_cons_of_mem n hm)) hne hd hv (by simp at hf; omega)
    rw [List.singleton_append] at h
    simp only [List.isEmpty_cons, h, Option.map_some]
    rfl

/-! ### Texts cut short -/

theorem ofDigitChars_prefix_lt {n : ℕ} {ds : List Char} (hds : ds <+: Nat.toDigits 10 n)
    (hne : ds ≠ []) (hproper : ds ≠ Nat.toDigits 10 n) : Nat.ofDigitChars 10 ds 0 < n := by
  obtain ⟨r, hr⟩ := hds
  have hrne : r ≠ [] := by
    rintro rfl
    exact hproper (by rw [← hr, List.append_nil])
  have hn : n = 10 ^ r.length * Nat.ofDigitChars 10 ds 0 + Nat.ofDigitChars 10 r 0 := by
    rw [← Nat.ofDigitChars_eq_ofDigitChars_zero, ← Nat.ofDigitChars_append, hr,
      Nat.ofDigitChars_ten_toDigits]
  have hlen : 10 ≤ 10 ^ r.length :=
    Nat.le_self_pow (by simpa using hrne) 10
  have hmul := Nat.mul_le_mul_right (Nat.ofDigitChars 10 ds 0) hlen
  by_cases h0 : Nat.ofDigitChars 10 ds 0 = 0
  · -- a number of two digits or more is not `0`
    have hn0 : n ≠ 0 := by
      rintro rfl
      have h1 := congrArg List.length hr
      have h2 := List.length_pos_of_ne_nil hne
      have h3 := List.length_pos_of_ne_nil hrne
      simp at h1
      omega
    omega
  · omega

/-- A prefix of a text of lines ends behind a line, or within one. -/
theorem prefix_lines {p : List Char} : ∀ {ns : List ℕ}, p <+: lines ns →
    (∃ ms, ms <+: ns ∧ p = lines ms) ∨
      ∃ ms n ds, ms ++ [n] <+: ns ∧ ds <+: Nat.toDigits 10 n ∧ ds ≠ [] ∧ p = lines ms ++ ds := by
  intro ns
  induction ns generalizing p with
  | nil =>
    intro h
    exact Or.inl ⟨[], List.nil_prefix, by simpa using h⟩
  | cons n ns ih =>
    intro h
    rw [lines_cons] at h
    -- an incomplete first line
    have hfirst : p <+: Nat.toDigits 10 n → p ≠ [] → (∃ ms, ms <+: n :: ns ∧ p = lines ms) ∨
        ∃ ms m ds, ms ++ [m] <+: n :: ns ∧ ds <+: Nat.toDigits 10 m ∧ ds ≠ [] ∧
          p = lines ms ++ ds :=
      fun hp hne => Or.inr ⟨[], n, p, by simp, hp, hne, rfl⟩
    by_cases hnil : p = []
    · exact Or.inl ⟨[], List.nil_prefix, by simp [hnil]⟩
    rcases List.prefix_or_prefix_of_prefix h (List.prefix_append _ _) with hp | ⟨q, rfl⟩
    · exact hfirst hp hnil
    rw [List.prefix_append_right_inj, List.prefix_cons_iff] at h
    rcases h with rfl | ⟨t, rfl, ht⟩
    · exact hfirst (by simp) hnil
    rcases ih ht with ⟨ms, hms, rfl⟩ | ⟨ms, m, ds, hms, hds, hne, rfl⟩
    · exact Or.inl ⟨n :: ms, (List.prefix_cons_inj n).mpr hms, (lines_cons n ms).symm⟩
    · refine Or.inr ⟨n :: ms, m, ds, (List.prefix_cons_inj n).mpr hms, hds, hne, ?_⟩
      rw [lines_cons, List.append_assoc, List.cons_append]

end Istream

end Lib
