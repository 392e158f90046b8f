import Jfsrec.Device
import Jfsrec.Unicode
import Jfsrec.Lib.PrefixCode
import Jfsrec.Lib.SparseFile
import Mathlib.Data.List.TakeWhile

/-!
# The buffer of the conversion

`Unicode_String_to_UTF8_std_string` writes into a static buffer, which it clears first, and
returns what stands before the first zero.  `conversion_eq` says that this is what the loop
writes, one character after the other, and that the rest of the buffer stays zero.

The bytes of the characters are a prefix code, `prefixCode_utf8`, so that no two names are
converted to the same string.
-/

namespace Jfsrec

open Lib

namespace Utf8

def bufferSize : ℕ := 8 * pathMax

/-- `memset(s, 0, sizeof (s))` -/
def clear (s : Buffer) : Buffer := fun k => if k < bufferSize then 0 else s k

def store (s : Buffer) (w : Patch) : Buffer := fun k => (w.byteAt k).getD (s k)

/-- The loop, from position `op` of the buffer; it ends with the next position. -/
def convertLoop : List UniChar → ℕ → ℕ → Buffer → ℕ × Buffer
  | [], op, _, s => (op, s)
  | ip :: rest, op, maxlen, s =>
      if ip = 0 ∨ maxlen = 0 then (op, s)
      else if ip > 0x7f then
        match unicodeCharacterToUtf8Character ip maxlen with
        | none => convertLoop rest op (maxlen - 1) s
        | some bytes =>
            convertLoop rest (op + bytes.length) (maxlen - bytes.length) (store s ⟨op, bytes⟩)
      else convertLoop rest (op + 1) (maxlen - 1) (store s ⟨op, [ip.toUInt8]⟩)

/-- The position and the buffer after a conversion, before which the buffer held `s`. -/
def convert (s : Buffer) (pwcs : List UniChar) : ℕ × Buffer :=
  convertLoop pwcs 0 (bufferSize - 1) (clear s)

/-- `std::string((char*)s)`: the bytes before the first zero. -/
def cString (s : Buffer) : List Char :=
  (((List.range bufferSize).map s).takeWhile (· ≠ 0)).map byteChar

/-- `Unicode_String_to_UTF8_std_string` -/
def toStdString (s : Buffer) (pwcs : List UniChar) : List Char := cString (convert s pwcs).2

variable {s s' : Buffer} {c d : UniChar} {cs ds : List UniChar} {op maxlen : ℕ}

/-! ### The buffer -/

theorem store_nil (s : Buffer) (op : ℕ) : store s ⟨op, []⟩ = s := by
  funext k
  simp [store, Patch.byteAt]

theorem store_store (s : Buffer) (op : ℕ) (as bs : List UInt8) :
    store (store s ⟨op, as⟩) ⟨op + as.length, bs⟩ = store s ⟨op, as ++ bs⟩ := by
  funext k
  simp only [store, Patch.byteAt]
  by_cases hk : op ≤ k
  · by_cases hk' : op + as.length ≤ k
    · rw [if_pos hk, if_pos hk', if_pos hk, List.getElem?_append_right (by omega),
        List.getElem?_eq_none (by omega : as.length ≤ k - op), Nat.sub_add_eq]
      rfl
    · rw [if_pos hk, if_neg hk', if_pos hk, List.getElem?_append_left (by omega)]
      rfl
  · rw [if_neg hk, if_neg (by omega), if_neg hk]
    rfl

/-- The loop puts its bytes one after another. -/
theorem convertLoop_eq (cs : List UniChar) : ∀ op maxlen s, convertLoop cs op maxlen s =
    (op + (utf8Loop cs maxlen).length, store s ⟨op, utf8Loop cs maxlen⟩) := by
  induction cs with
  | nil =>
    intro op maxlen s
    rw [convertLoop, utf8Loop, store_nil]
    rfl
  | cons c cs ih =>
    intro op maxlen s
    rw [convertLoop, utf8Loop]
    split_ifs with hend hc
    · rw [store_nil]
      rfl
    · cases unicodeCharacterToUtf8Character c maxlen with
      | none => exact ih _ _ _
      | some bytes =>
        dsimp only
        rw [ih, store_store, List.length_append, Nat.add_assoc]
    · have hstore := store_store s op [c.toUInt8] (utf8Loop cs (maxlen - 1))
      rw [List.length_singleton, List.singleton_append] at hstore
      rw [ih, hstore, List.length_cons, Nat.add_assoc, Nat.add_comm 1]

/-- A string without zeros that is put into the cleared buffer is read back, if the last byte
of the buffer stays free. -/
theorem cString_store {bytes : List UInt8} (hlen : bytes.length < bufferSize)
    (hne : ∀ b ∈ bytes, b ≠ 0) : cString (store (clear s) ⟨0, bytes⟩) = bytes.map byteChar := by
  obtain ⟨n, hn⟩ : ∃ n, bufferSize = bytes.length + (n + 1) :=
    ⟨bufferSize - bytes.length - 1, by omega⟩
  have hfront : (List.range bytes.length).map (store (clear s) ⟨0, bytes⟩) = bytes := by
    refine List.ext_getElem (by simp) (fun k _ hk => ?_)
    simp [store, Patch.byteAt, hk]
  have hzero : store (clear s) ⟨0, bytes⟩ (bytes.length + 0) = 0 := by
    simp [store, Patch.byteAt, clear, hlen]
  rw [cString, hn, List.range_add, List.map_append, hfront, List.range_succ_eq_map, List.map_cons,
    List.map_cons, hzero, List.takeWhile_append_of_pos (by simpa using hne),
    List.takeWhile_cons_of_neg (by simp), List.append_nil]

/-! ### The bytes of a name -/

theorem length_utf8 (c : UniChar) : 1 ≤ (utf8 c).length ∧ (utf8 c).length ≤ 3 := by
  unfold utf8
  split_ifs <;> simp

theorem ne_zero_of_mem_utf8 (hc : c ≠ 0) {b : UInt8} (hb : b ∈ utf8 c) : b ≠ 0 := by
  rintro rfl
  exact hc ((UniName.mem_utf8_iff (a := 0) (by decide)).mp hb).symm

theorem length_flatMap_utf8 (cs : List UniChar) :
    cs.length ≤ (cs.flatMap utf8).length ∧ (cs.flatMap utf8).length ≤ 3 * cs.length := by
  induction cs with
  | nil => exact ⟨le_rfl, le_rfl⟩
  | cons c cs ih =>
    have hc := length_utf8 c
    rw [List.flatMap_cons, List.length_append, List.length_cons]
    omega

/-- **What a conversion leaves**: the bytes of the characters before the first zero, and zeros
behind them. -/
theorem conversion_eq (s : Buffer) (cs : List UniChar) (hlen : 3 * cs.length < bufferSize) :
    convert s cs = (((cs.takeWhile (· ≠ 0)).flatMap utf8).length,
      store (clear s) ⟨0, (cs.takeWhile (· ≠ 0)).flatMap utf8⟩) ∧
    toStdString s cs = ((cs.takeWhile (· ≠ 0)).flatMap utf8).map byteChar := by
  have hconvert : convert s cs = (((cs.takeWhile (· ≠ 0)).flatMap utf8).length,
      store (clear s) ⟨0, (cs.takeWhile (· ≠ 0)).flatMap utf8⟩) := by
    rw [convert, convertLoop_eq, utf8Loop_eq cs _ (by omega), Nat.zero_add]
  refine ⟨hconvert, ?_⟩
  have hbytes := (length_flatMap_utf8 (cs.takeWhile (· ≠ 0))).2
  have htext : (cs.takeWhile (· ≠ 0)).length ≤ cs.length := (List.takeWhile_prefix _).length_le
  rw [toStdString, hconvert]
  refine cString_store (by omega) (fun b hb => ?_)
  obtain ⟨c, hc, hbc⟩ := List.mem_flatMap.mp hb
  exact ne_zero_of_mem_utf8 (by simpa using List.mem_takeWhile_imp hc) hbc

/-! ### Reading it back -/

theorem toNat_ofNat_or {i a x : ℕ} (hx : x < 2 ^ i) (ha : 2 ^ i * a + x < 256) :
    (UInt8.ofNat (2 ^ i * a ||| x)).toNat = 2 ^ i * a + x := by
  rw [← Nat.two_pow_add_eq_or_of_lt hx, UInt8.toNat_ofNat_of_lt' ha]

theorem utf8_toNat (c : UniChar) : (utf8 c).map UInt8.toNat =
    if c.toNat ≤ 127 then [c.toNat]
    else if c.toNat ≤ 2047 then [192 + c.toNat / 64, 128 + c.toNat % 64]
    else [224 + c.toNat / 4096, 128 + c.toNat / 64 % 64, 128 + c.toNat % 64] := by
  have hc : c.toNat < 65536 := c.toNat_lt
  have hlow : ∀ y : ℕ, (UInt8.ofNat (0x80 ||| (y &&& 0x3F))).toNat = 128 + y % 64 := by
    intro y
    rw [Nat.and_two_pow_sub_one_eq_mod y 6]
    exact toNat_ofNat_or (i := 6) (a := 2) (by omega) (by omega)
  unfold utf8
  by_cases h1 : c.toNat ≤ 127
  · have hle : c ≤ 0x7f := UInt16.le_iff_toNat_le.mpr h1
    rw [if_pos hle, if_pos h1, List.map_singleton, UInt16.toNat_toUInt8,
      Nat.mod_eq_of_lt (by omega)]
  · have hgt : ¬ c ≤ 0x7f := fun h => h1 (UInt16.le_iff_toNat_le.mp h)
    rw [if_neg hgt, if_neg h1]
    by_cases h2 : c.toNat ≤ 2047
    · have hle : c ≤ 0x7ff := UInt16.le_iff_toNat_le.mpr h2
      have hhead : (UInt8.ofNat (0xC0 ||| c.toNat >>> 6)).toNat = 192 + c.toNat / 64 := by
        rw [Nat.shiftRight_eq_div_pow]
        exact toNat_ofNat_or (i := 6) (a := 3) (by omega) (by omega)
      rw [if_pos hle, if_pos h2, List.map_cons, List.map_singleton, hhead, hlow]
    · have hgt' : ¬ c ≤ 0x7ff := fun h => h2 (UInt16.le_iff_toNat_le.mp h)
      have hhead : (UInt8.ofNat (0xE0 ||| c.toNat >>> 12)).toNat = 224 + c.toNat / 4096 := by
        rw [Nat.shiftRight_eq_div_pow]
        exact toNat_ofNat_or (i := 5) (a := 7) (by omega) (by omega)
      rw [if_neg hgt', if_neg h2, List.map_cons, List.map_cons, List.map_singleton, hhead, hlow,
        hlow, Nat.shiftRight_eq_div_pow]

/-- **The bytes of a character do not begin those of another.** -/
theorem prefixCode_utf8 : PrefixCode utf8 := by
  intro c d h
  have hmap := h.map UInt8.toNat
  rw [utf8_toNat, utf8_toNat] at hmap
  have hc : c.toNat < 65536 := c.toNat_lt
  have hd : d.toNat < 65536 := d.toNat_lt
  refine UInt16.toNat_inj.mp ?_
  split_ifs at hmap <;> simp only [List.cons_prefix_cons] at hmap <;> omega

instance : Nontrivial UniChar := ⟨0, 1, by decide⟩

theorem conversion_of_noZero (hne : (0 : UniChar) ∉ cs) (hlen : cs.length ≤ 255) (s : Buffer) :
    convert s cs = ((cs.flatMap utf8).length, store (clear s) ⟨0, cs.flatMap utf8⟩) ∧
    toStdString s cs = (cs.flatMap utf8).map byteChar := by
  have htext : cs.takeWhile (· ≠ 0) = cs := by
    refine List.takeWhile_eq_self_iff.mpr (fun c hc => ?_)
    simpa using fun h0 : c = 0 => hne (h0 ▸ hc)
  have heq := conversion_eq s cs (by rw [bufferSize, pathMax]; omega)
  rwa [htext] at heq

/-- **Name conversion is faithful**: names without zeros are told apart, all of each character
gets into the string, in one to three bytes, the end of the buffer is not reached, and what
the buffer held before does not matter. -/
theorem toStdString_faithful (s s' : Buffer) (cs ds : List UniChar) (hcs : (0 : UniChar) ∉ cs)
    (hcslen : cs.length ≤ 255) (hds : (0 : UniChar) ∉ ds) (hdslen : ds.length ≤ 255) :
    (toStdString s cs = toStdString s' ds → cs = ds) ∧
    toStdString s cs = (cs.flatMap utf8).map byteChar ∧
    (∀ c ∈ cs, c > 0x7f → ∀ maxlen, 3 ≤ maxlen →
      unicodeCharacterToUtf8Character c maxlen = some (utf8 c)) ∧
    (cs.length ≤ (toStdString s cs).length ∧ (toStdString s cs).length ≤ 3 * cs.length) ∧
    (∀ c ∈ cs, 1 ≤ (utf8 c).length ∧ (utf8 c).length ≤ 3) ∧
    ((convert s cs).1 + 1 < bufferSize ∧
      ∀ k, (convert s cs).1 ≤ k → (convert s cs).2 k = clear s k) ∧
    toStdString s cs = toStdString s' cs := by
  obtain ⟨hconvert, hstring⟩ := conversion_of_noZero hcs hcslen s
  have hlen := length_flatMap_utf8 cs
  have hbuffer : bufferSize = 32768 := rfl
  refine ⟨fun h => ?_, hstring, fun c _ hc maxlen hm => unicodeCharacterToUtf8Character_eq hc hm,
    ?_, fun c _ => length_utf8 c, ?_, ?_⟩
  · rw [hstring, (conversion_of_noZero hds hdslen s').2] at h
    exact prefixCode_utf8.flatMap_injective
      (List.map_injective_iff.mpr UniName.byteChar_injective h)
  · rw [hstring, List.length_map]
    exact hlen
  · rw [hconvert]
    refine ⟨by dsimp only; omega, fun k hk => ?_⟩
    have hnone : Patch.byteAt ⟨0, cs.flatMap utf8⟩ k = none :=
      Patch.byteAt_eq_none (by rw [Nat.zero_add]; exact hk)
    show (Patch.byteAt ⟨0, cs.flatMap utf8⟩ k).getD (clear s k) = clear s k
    rw [hnone]
    rfl
  · rw [hstring, (conversion_of_noZero hcs hcslen s').2]

/-- A lone surrogate and a letter, after a longer name. -/
theorem toStdString_faithful_surrogate :
    toStdString (fun _ => 7) [0xD800, 0x41] ≠ toStdString (fun _ => 0) [0xD801, 0x41] := by
  intro h
  exact absurd ((toStdString_faithful _ _ [0xD800, 0x41] [0xD801, 0x41] (by decide) (by decide)
    (by decide) (by decide)).1 h) (by decide)

end Utf8

end Jfsrec
