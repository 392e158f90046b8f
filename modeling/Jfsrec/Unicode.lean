import Mathlib.Data.List.Basic
import Mathlib.Data.Nat.Notation

/-!
# Names

`unicode_to_utf8.cpp`.  A directory entry holds its name as 16-bit characters;
`unicodeStringToUtf8StdString` is the `std::string` made from it, whose bytes
are `Char`s here.  The conversion stops at the first zero, `toUtf8_eq`, and an
ASCII byte of the result is a character of the name: `ascii_mem_toUtf8` and
`toUtf8_eq_ascii`.
-/

namespace Jfsrec

abbrev UniChar := UInt16

/-! ### unicode_to_utf8.cpp -/

/-- What the conversion to UTF-8 reads in a row of `utf8_table`; `sixes` is `shift / 6`. -/
structure Utf8Table where
  cval : ℕ
  sixes : ℕ
  lmask : ℕ

def utf8Table : List Utf8Table :=
  [⟨0x00, 0, 0x7F⟩, ⟨0xC0, 1, 0x7FF⟩, ⟨0xE0, 2, 0xFFFF⟩, ⟨0xF0, 3, 0x1FFFFF⟩,
    ⟨0xF8, 4, 0x3FFFFFF⟩, ⟨0xFC, 5, 0x7FFFFFFF⟩]

def tailBytes (l : ℕ) : ℕ → List UInt8
  | 0 => []
  | c + 1 => UInt8.ofNat (0x80 ||| (l >>> (6 * c) &&& 0x3F)) :: tailBytes l c

/-- The loop over the table; `none` is the result `-1`. -/
def rowBytes (l : ℕ) : List Utf8Table → ℕ → Option (List UInt8)
  | [], _ => none
  | t :: ts, maxlen =>
      if maxlen = 0 then none
      else if l ≤ t.lmask then
        some (UInt8.ofNat (t.cval ||| l >>> (6 * t.sixes)) :: tailBytes l t.sixes)
      else rowBytes l ts (maxlen - 1)

def unicodeCharacterToUtf8Character (wc : UniChar) (maxlen : ℕ) : Option (List UInt8) :=
  rowBytes wc.toNat utf8Table maxlen

/-- The loop over the string; the end of the list is its terminating zero. -/
def utf8Loop : List UniChar → ℕ → List UInt8
  | [], _ => []
  | ip :: rest, maxlen =>
      if ip = 0 ∨ maxlen = 0 then []
      else if ip > 0x7f then
        match unicodeCharacterToUtf8Character ip maxlen with
        | none => utf8Loop rest (maxlen - 1)
        | some s => s ++ utf8Loop rest (maxlen - s.length)
      else ip.toUInt8 :: utf8Loop rest (maxlen - 1)

def pathMax : ℕ := 4096

def byteChar (b : UInt8) : Char := Char.ofNat b.toNat

def unicodeStringToUtf8StdString (pwcs : List UniChar) : List Char :=
  (utf8Loop pwcs (8 * pathMax - 1)).map byteChar

/-! ### The bytes of a character -/

def utf8 (c : UniChar) : List UInt8 :=
  if c ≤ 0x7f then [c.toUInt8]
  else if c ≤ 0x7ff then
    [UInt8.ofNat (0xC0 ||| c.toNat >>> 6), UInt8.ofNat (0x80 ||| (c.toNat &&& 0x3F))]
  else
    [UInt8.ofNat (0xE0 ||| c.toNat >>> 12), UInt8.ofNat (0x80 ||| (c.toNat >>> 6 &&& 0x3F)),
      UInt8.ofNat (0x80 ||| (c.toNat &&& 0x3F))]

theorem unicodeCharacterToUtf8Character_eq {c : UniChar} {maxlen : ℕ} (hc : c > 0x7f)
    (hm : 3 ≤ maxlen) : unicodeCharacterToUtf8Character c maxlen = some (utf8 c) := by
  have hlt : c.toNat < 65536 := c.toNat_lt
  have h1 : ¬ c.toNat ≤ 127 := by
    have := UInt16.lt_iff_toNat_lt.mp hc
    simpa using this
  have h2 : ¬ c ≤ 0x7f := by simpa [UInt16.le_iff_toNat_le] using h1
  have h3 : (c ≤ 0x7ff) ↔ c.toNat ≤ 2047 := by simp [UInt16.le_iff_toNat_le]
  have h4 : c.toNat ≤ 65535 := by omega
  obtain ⟨m, rfl⟩ : ∃ m, maxlen = m + 3 := ⟨maxlen - 3, by omega⟩
  simp only [unicodeCharacterToUtf8Character, utf8Table, rowBytes, utf8, if_neg h1, if_neg h2, h3]
  by_cases h : c.toNat ≤ 2047
  · simp [h, tailBytes]
  · simp [h, h4, tailBytes]

theorem utf8_ne_nil (c : UniChar) : utf8 c ≠ [] := by
  unfold utf8
  split
  · simp
  · split <;> simp

theorem le_ofNat_or {a x : ℕ} (ha : 0x80 ≤ a) (hx : a ||| x < 256) :
    (0x80 : UInt8) ≤ UInt8.ofNat (a ||| x) := by
  rw [UInt8.le_iff_toNat_le, UInt8.toNat_ofNat_of_lt' hx]
  exact Nat.le_trans ha Nat.left_le_or

/-- No byte of a character beyond ASCII is an ASCII byte. -/
theorem le_of_mem_utf8 {c : UniChar} (hc : ¬ c ≤ 0x7f) {b : UInt8} (hb : b ∈ utf8 c) :
    0x80 ≤ b := by
  have hlt : c.toNat < 65536 := c.toNat_lt
  have hlow : ∀ y, 0x80 ≤ UInt8.ofNat (0x80 ||| (y &&& 0x3F)) := by
    intro y
    have hy : y &&& 0x3F < 2 ^ 8 := Nat.lt_of_le_of_lt Nat.and_le_right (by decide)
    exact le_ofNat_or (Nat.le_refl _) (Nat.or_lt_two_pow (n := 8) (by decide) hy)
  rw [utf8, if_neg hc] at hb
  split at hb
  · rename_i h
    have h6 : c.toNat >>> 6 < 2 ^ 8 := by
      rw [Nat.shiftRight_eq_div_pow]
      have : c.toNat ≤ 2047 := by simpa [UInt16.le_iff_toNat_le] using h
      omega
    rcases List.mem_cons.mp hb with rfl | hb
    · exact le_ofNat_or (by decide) (Nat.or_lt_two_pow (n := 8) (by decide) h6)
    · rw [List.mem_singleton.mp hb]
      exact hlow _
  · have h12 : c.toNat >>> 12 < 2 ^ 8 := by
      rw [Nat.shiftRight_eq_div_pow]
      omega
    rcases List.mem_cons.mp hb with rfl | hb
    · exact le_ofNat_or (by decide) (Nat.or_lt_two_pow (n := 8) (by decide) h12)
    · rcases List.mem_cons.mp hb with rfl | hb
      · exact hlow _
      · rw [List.mem_singleton.mp hb]
        exact hlow _

/-- **The conversion, as far as the first zero.** -/
theorem utf8Loop_eq (cs : List UniChar) : ∀ maxlen, 3 * cs.length ≤ maxlen →
    utf8Loop cs maxlen = (cs.takeWhile (· ≠ 0)).flatMap utf8 := by
  induction cs with
  | nil => intro maxlen _; rfl
  | cons c cs ih =>
    intro maxlen hm
    rw [List.length_cons] at hm
    rw [utf8Loop]
    by_cases h0 : c = 0
    · rw [if_pos (Or.inl h0), List.takeWhile_cons_of_neg (by simpa using h0)]
      rfl
    · have hm0 : maxlen ≠ 0 := by omega
      rw [if_neg (not_or.mpr ⟨h0, hm0⟩), List.takeWhile_cons_of_pos (by simpa using h0),
        List.flatMap_cons]
      by_cases hc : c > 0x7f
      · rw [if_pos hc, unicodeCharacterToUtf8Character_eq hc (by omega)]
        have hlen : (utf8 c).length ≤ 3 := by
          unfold utf8
          split
          · simp
          · split <;> simp
        show utf8 c ++ utf8Loop cs (maxlen - (utf8 c).length) = _
        rw [ih _ (by omega)]
      · rw [if_neg hc, ih _ (by omega)]
        have hle : c ≤ 0x7f := UInt16.not_lt.mp hc
        rw [utf8, if_pos hle]
        rfl

/-! ### Names of directory entries -/

/-- The name in a directory entry, whose length is a `uint8_t`. -/
structure UniName where
  chars : List UniChar
  length_le : chars.length ≤ 255
deriving DecidableEq

namespace UniName

def text (n : UniName) : List UniChar := n.chars.takeWhile (· ≠ 0)

def toUtf8 (n : UniName) : List Char := unicodeStringToUtf8StdString n.chars

theorem toUtf8_eq (n : UniName) : n.toUtf8 = (n.text.flatMap utf8).map byteChar := by
  have hlen := n.length_le
  have hmax : 3 * n.chars.length ≤ 8 * pathMax - 1 := by
    rw [pathMax]
    omega
  rw [toUtf8, unicodeStringToUtf8StdString, utf8Loop_eq _ _ hmax, text]

theorem toNat_byteChar (b : UInt8) : (byteChar b).toNat = b.toNat := by
  have hb : b.toNat < 256 := b.toNat_lt
  have hv : b.toNat.isValidChar := Or.inl (by omega)
  rw [byteChar, Char.ofNat, dif_pos hv]
  rfl

theorem byteChar_injective : Function.Injective byteChar := by
  intro b b' h
  have hn := congrArg Char.toNat h
  rw [toNat_byteChar, toNat_byteChar] at hn
  exact UInt8.toNat_inj.mp hn

def asciiChar (a : UniChar) : Char := byteChar a.toUInt8

theorem toUInt8_inj {a c : UniChar} (ha : a ≤ 0x7f) (hc : c ≤ 0x7f)
    (h : a.toUInt8 = c.toUInt8) : a = c := by
  rw [UInt16.le_iff_toNat_le] at ha hc
  have hn := congrArg UInt8.toNat h
  rw [UInt16.toNat_toUInt8, UInt16.toNat_toUInt8] at hn
  have h127 : (0x7f : UInt16).toNat = 127 := rfl
  exact UInt16.toNat_inj.mp (by omega)

theorem toUInt8_lt {a : UniChar} (ha : a ≤ 0x7f) : ¬ (0x80 : UInt8) ≤ a.toUInt8 := by
  rw [UInt16.le_iff_toNat_le] at ha
  rw [UInt8.le_iff_toNat_le, UInt16.toNat_toUInt8]
  have h127 : (0x7f : UInt16).toNat = 127 := rfl
  have h128 : (0x80 : UInt8).toNat = 128 := rfl
  omega

/-- An ASCII byte comes from that character only. -/
theorem mem_utf8_iff {a c : UniChar} (ha : a ≤ 0x7f) : a.toUInt8 ∈ utf8 c ↔ a = c := by
  by_cases hc : c ≤ 0x7f
  · rw [utf8, if_pos hc, List.mem_singleton]
    exact ⟨toUInt8_inj ha hc, congrArg _⟩
  · constructor
    · intro h
      exact absurd (le_of_mem_utf8 hc h) (toUInt8_lt ha)
    · rintro rfl
      exact absurd ha hc

/-- **ASCII characters of the name are those of the result.** -/
theorem ascii_mem_toUtf8 (n : UniName) {a : UniChar} (ha : a ≤ 0x7f) :
    asciiChar a ∈ n.toUtf8 ↔ a ∈ n.text := by
  rw [toUtf8_eq, asciiChar, List.mem_map_of_injective byteChar_injective, List.mem_flatMap]
  constructor
  · rintro ⟨c, hc, h⟩
    rwa [(mem_utf8_iff ha).mp h]
  · intro h
    exact ⟨a, h, (mem_utf8_iff ha).mpr rfl⟩

theorem flatMap_utf8_eq_iff {as : List UniChar} (has : ∀ a ∈ as, a ≤ 0x7f) (cs : List UniChar) :
    cs.flatMap utf8 = as.map UInt16.toUInt8 ↔ cs = as := by
  induction cs generalizing as with
  | nil => cases as <;> simp
  | cons c cs ih =>
    rw [List.flatMap_cons]
    cases as with
    | nil => simp [utf8_ne_nil c]
    | cons a as =>
      have ha : a ≤ 0x7f := has a (List.mem_cons_self)
      have has' : ∀ b ∈ as, b ≤ 0x7f := fun b hb => has b (List.mem_cons_of_mem a hb)
      rw [List.map_cons]
      by_cases hc : c ≤ 0x7f
      · rw [utf8, if_pos hc, List.singleton_append, List.cons_eq_cons, List.cons_eq_cons, ih has']
        exact and_congr_left' ⟨toUInt8_inj hc ha, congrArg _⟩
      · constructor
        · intro h
          obtain ⟨b, bs, hb⟩ := List.exists_cons_of_ne_nil (utf8_ne_nil c)
          rw [hb, List.cons_append] at h
          have hmem : b ∈ utf8 c := by rw [hb]; exact List.mem_cons_self
          rw [(List.cons.inj h).1] at hmem
          exact absurd (le_of_mem_utf8 hc hmem) (toUInt8_lt ha)
        · intro h
          rw [(List.cons.inj h).1] at hc
          exact absurd ha hc

/-- **The result is an ASCII string exactly if the name is that string.** -/
theorem toUtf8_eq_ascii (n : UniName) (as : List UniChar) (has : ∀ a ∈ as, a ≤ 0x7f) :
    n.toUtf8 = as.map asciiChar ↔ n.text = as := by
  have hmap : as.map asciiChar = (as.map UInt16.toUInt8).map byteChar := by
    rw [List.map_map]
    rfl
  rw [toUtf8_eq, hmap, (List.map_injective_iff.mpr byteChar_injective).eq_iff,
    flatMap_utf8_eq_iff has]

end UniName

end Jfsrec
