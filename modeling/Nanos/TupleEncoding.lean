import Mathlib.Data.Nat.Notation
import Mathlib.Algebra.Group.Nat.Defs

set_option autoImplicit false

/-!
# `runtime/tuple.c` and `runtime/buffer.h`: headers and varints

The encoded tuples of the root filesystem start every value with a header: a first byte with
the immediate bit, three bits of type, an extension bit and the top bits of the length, then
the rest of the length in groups of seven bits, most significant first, the high bit set on
every group but the last. `push_varint` writes a `u64` the same way with no header bits.
`pop_header` and `pop_varint` share one loop, `popGroups`: shift the low seven bits of a byte
into the `u64` accumulator, and go on while the byte's high bit is set.

A buffer is the list of its bytes from `start` to `end`, each a `u8`: `push_u8` appends a
byte, `pop_u8` takes the first one and fails its assertion on an empty buffer. Both headers
and varints read back what was written, after any bytes and before any others
(`header_varint_roundtrip`).
-/

namespace Nanos.TupleEncoding

/-- `msb(x)`, `63 - __builtin_clzll(x)`: the index of the highest set bit, and `-1ull` for 0. -/
def msb (x : ℕ) : ℕ := if x = 0 then 2 ^ 64 - 1 else x.log2

/-- The loop of `pop_varint`, and of the extension words of `pop_header`: shift the low seven
    bits of a byte into the `u64` accumulator, and go on while its high bit is set. `none` is
    the failed assertion of `pop_u8` on an empty buffer. -/
def popGroups (acc : ℕ) : List ℕ → Option (ℕ × List ℕ)
  | [] => none
  | a :: b =>
    let acc := (acc <<< 7) % 2 ^ 64 ||| (a &&& 0x7f)
    if a &&& 0x80 ≠ 0 then popGroups acc b else some (acc, b)

def popVarint (b : List ℕ) : Option (ℕ × List ℕ) := popGroups 0 b

/-- `pop_header(f, &imm, &type, old_encoding)`: `imm`, `type` and the length, and the rest of
    the buffer. -/
def popHeader (oldEncoding : Bool) : List ℕ → Option ((ℕ × ℕ × ℕ) × List ℕ)
  | [] => none
  | a :: b =>
    let imm := a >>> 7
    let type := if oldEncoding then (a >>> 6) &&& 1 else (a >>> 4) &&& 0x7
    let len := a &&& (if oldEncoding then 0x1f else 0x7)
    if a &&& (if oldEncoding then 1 <<< 5 else 1 <<< 3) ≠ 0 then
      (popGroups len b).map fun (len, b) => ((imm, type, len), b)
    else some ((imm, type, len), b)

/-- The extension words of `push_header`, the loop `while (i-- > 0)` from `i = words`: group
    `i` of seven bits of the length, with the high bit set on every word but the last. -/
def headerWords (length : ℕ) : ℕ → List ℕ
  | 0 => []
  | i + 1 => ((length >>> (i * 7)) &&& 0x7f ||| if i ≠ 0 then 0x80 else 0) :: headerWords length i

/-- The extension words of `push_header`: `bits = msb(length) + 1` in `u64`, so 0 for a length
    of 0, and the words that hold the bits past the first three. -/
def extWords (length : ℕ) : ℕ :=
  let bits := (msb length + 1) % 2 ^ 64
  if bits > 3 then ((bits - 3) + (7 - 1)) / 7 else 0

/-- `push_header(b, imm, type, length)`; `none` is the failed `assert(type < 8)`. -/
def pushHeader (b : List ℕ) (imm type length : ℕ) : Option (List ℕ) :=
  let words := extWords length
  if type < 8 then
    let first := ((imm <<< 7) ||| (type <<< 4) ||| ((if words ≠ 0 then 1 else 0) <<< 3) |||
      (length >>> (words * 7))) % 256
    some (b ++ first :: headerWords length words)
  else none

/-- A length of 300, nine bits: the top two in the first byte, then one word. -/
example : pushHeader [] 1 2 300 = some [0xaa, 0x2c] := by decide +kernel

/-- The array `tmp` of `push_varint` as the loop `while (x)` fills it: a group of seven bits of
    `x` with the high bit set, low first. -/
def varintTmp (x : ℕ) (tmp : List ℕ) : List ℕ :=
  if x = 0 then tmp else varintTmp (x >>> 7) (tmp ++ [0x80 ||| (x &&& 0x7f)])
termination_by x
decreasing_by
  rw [Nat.shiftRight_eq_div_pow]
  omega

/-- `push_varint(b, x)`: `tmp[0]` is the low group without the high bit, and the bytes go out
    from `tmp[last]` down to `tmp[0]`. -/
def pushVarint (b : List ℕ) (x : ℕ) : List ℕ :=
  b ++ (varintTmp (x >>> 7) [x &&& 0x7f]).reverse

/-! ## Reading the groups back -/

theorem and_0x7f (a : ℕ) : a &&& 0x7f = a % 128 := Nat.and_two_pow_sub_one_eq_mod a 7

theorem word_bits (y : ℕ) {c : ℕ} (hc : c = 0 ∨ c = 0x80) :
    ((y &&& 0x7f) ||| c) &&& 0x7f = y % 128 ∧ ((y &&& 0x7f) ||| c) &&& 0x80 = c := by
  have hbyte : ∀ g < 128, ((g ||| 0) &&& 0x7f = g ∧ (g ||| 0) &&& 0x80 = 0) ∧
      ((g ||| 0x80) &&& 0x7f = g ∧ (g ||| 0x80) &&& 0x80 = 0x80) := by decide
  rw [and_0x7f y]
  have := hbyte (y % 128) (Nat.mod_lt _ (by decide))
  rcases hc with rfl | rfl
  · exact this.1
  · exact this.2

theorem shift_or_group {x : ℕ} (hx : x < 2 ^ 64) (k : ℕ) :
    ((x >>> ((k + 1) * 7)) <<< 7) % 2 ^ 64 ||| (x >>> (k * 7)) % 128 = x >>> (k * 7) := by
  have hy : x >>> ((k + 1) * 7) = (x >>> (k * 7)) / 2 ^ 7 := by
    rw [Nat.succ_mul, Nat.shiftRight_add, Nat.shiftRight_eq_div_pow]
  have hle : x >>> (k * 7) ≤ x := Nat.shiftRight_le x (k * 7)
  have hdm := Nat.div_add_mod (x >>> (k * 7)) (2 ^ 7)
  rw [hy, Nat.shiftLeft_eq, Nat.mod_eq_of_lt (by omega), Nat.mul_comm,
    ← Nat.two_pow_add_eq_or_of_lt (Nat.mod_lt _ (by decide))]
  omega

/-- `popGroups` reads back the words that `headerWords` writes, from the groups above them in
    the accumulator, and leaves the bytes after them. -/
theorem popGroups_headerWords {x : ℕ} (hx : x < 2 ^ 64) (rest : List ℕ) (n : ℕ) :
    popGroups (x >>> ((n + 1) * 7)) (headerWords x (n + 1) ++ rest) = some (x, rest) := by
  induction n with
  | zero =>
    -- the last word: the high bit is clear, and the loop stops
    obtain ⟨hlow, hhigh⟩ := word_bits x (c := 0) (.inl rfl)
    simp only [headerWords, Nat.zero_mul, Nat.shiftRight_zero, ne_eq, not_true_eq_false,
      if_false, List.cons_append, List.nil_append, popGroups] at hlow hhigh ⊢
    rw [hhigh, hlow, if_neg (by decide)]
    have := shift_or_group hx 0
    simp only [Nat.zero_mul, Nat.shiftRight_zero, Nat.zero_add, Nat.one_mul] at this
    rw [this]
  | succ n ih =>
    -- a word with the high bit set: one round, then the words below it
    obtain ⟨hlow, hhigh⟩ := word_bits (x >>> ((n + 1) * 7)) (c := 0x80) (.inr rfl)
    rw [headerWords, if_pos (Nat.succ_ne_zero n), List.cons_append, popGroups]
    rw [hhigh, hlow, if_pos (by decide), shift_or_group hx (n + 1)]
    exact ih

theorem shiftRight_eq_zero {x k : ℕ} (hx : x < 2 ^ 64) (hk : 64 ≤ k) : x >>> k = 0 := by
  rw [Nat.shiftRight_eq_div_pow]
  exact Nat.div_eq_of_lt (Nat.lt_of_lt_of_le hx (Nat.pow_le_pow_right (by decide) hk))

/-! ## `push_varint` -/

/-- The loop of `push_varint` from group `j` on, with the groups below `j` already in `tmp`:
    it fills `tmp` up to the group `n` where the value runs out. The induction is on the groups
    left before it does. -/
theorem varintTmp_headerWords (x d : ℕ) :
    ∀ j, 1 ≤ j → x >>> ((j + d) * 7) = 0 →
      ∃ n, j ≤ n ∧ x >>> (n * 7) = 0 ∧ (j < n → x >>> ((n - 1) * 7) ≠ 0) ∧
        varintTmp (x >>> (j * 7)) (headerWords x j).reverse = (headerWords x n).reverse := by
  induction d with
  | zero =>
    intro j _ hj
    rw [Nat.add_zero] at hj
    exact ⟨j, Nat.le_refl j, hj, fun h => absurd h (Nat.lt_irrefl j), by rw [varintTmp, if_pos hj]⟩
  | succ d ih =>
    intro j hj1 hd
    by_cases h0 : x >>> (j * 7) = 0
    · exact ⟨j, Nat.le_refl j, h0, fun h => absurd h (Nat.lt_irrefl j),
        by rw [varintTmp, if_pos h0]⟩
    · -- one more group: it goes at the end of `tmp`, with the high bit set
      obtain ⟨n, hjn, hn0, hlast, he⟩ :=
        ih (j + 1) (by omega) (by rwa [show j + 1 + d = j + (d + 1) by omega])
      refine ⟨n, by omega, hn0, fun _ => ?_, ?_⟩
      · by_cases hn : j + 1 < n
        · exact hlast hn
        · rwa [show n - 1 = j by omega]
      · rw [varintTmp, if_neg h0, ← he, ← Nat.shiftRight_add, ← Nat.succ_mul, headerWords,
          if_pos (by omega), List.reverse_cons, Nat.or_comm]

@[simp] theorem length_headerWords (x n : ℕ) : (headerWords x n).length = n := by
  induction n with
  | zero => rfl
  | succ n ih => simp [headerWords, ih]

/-- `push_varint` writes the groups of `x` as `headerWords` does, one to ten of them. -/
theorem pushVarint_eq {x : ℕ} (hx : x < 2 ^ 64) (b : List ℕ) :
    ∃ n, n ≤ 9 ∧ x >>> ((n + 1) * 7) = 0 ∧ pushVarint b x = b ++ headerWords x (n + 1) := by
  obtain ⟨n, h1n, hn0, hlast, he⟩ :=
    varintTmp_headerWords x 9 1 (Nat.le_refl 1) (shiftRight_eq_zero hx (by decide))
  have hfirst : [x &&& 0x7f] = (headerWords x 1).reverse := by simp [headerWords]
  -- a group past the tenth is zero for a `u64`
  have hn : n ≤ 10 := Nat.le_of_not_lt fun h => hlast (by omega) (shiftRight_eq_zero hx (by omega))
  refine ⟨n - 1, by omega, by rwa [Nat.sub_add_cancel h1n], ?_⟩
  rw [pushVarint, hfirst, show x >>> 7 = x >>> (1 * 7) by rw [Nat.one_mul], he,
    List.reverse_reverse, Nat.sub_add_cancel h1n]

theorem pushVarint_popVarint {x : ℕ} (hx : x < 2 ^ 64) (b rest : List ℕ) :
    ∃ bytes, pushVarint b x = b ++ bytes ∧ bytes.length ≤ 10 ∧
      popVarint (bytes ++ rest) = some (x, rest) := by
  obtain ⟨n, hn, hn0, he⟩ := pushVarint_eq hx b
  refine ⟨headerWords x (n + 1), he, by rw [length_headerWords]; omega, ?_⟩
  rw [popVarint, ← hn0]
  exact popGroups_headerWords hx rest n

/-! ## `push_header` -/

theorem extWords_top {length : ℕ} (hl : length < 2 ^ 64) :
    length >>> (extWords length * 7) < 8 := by
  by_cases h0 : length = 0
  · simp [h0]
  · have hlog : length.log2 < 64 := (Nat.log2_lt h0).2 hl
    have hbits : (msb length + 1) % 2 ^ 64 = length.log2 + 1 := by
      rw [msb, if_neg h0]
      omega
    have hle : length.log2 + 1 ≤ 3 + extWords length * 7 := by
      unfold extWords
      rw [hbits]
      dsimp only
      split <;> omega
    rw [Nat.shiftRight_eq_div_pow, Nat.div_lt_iff_lt_mul (Nat.two_pow_pos _)]
    calc length < 2 ^ (length.log2 + 1) := Nat.lt_log2_self
      _ ≤ 2 ^ (3 + extWords length * 7) := Nat.pow_le_pow_right (by decide) hle
      _ = 8 * 2 ^ (extWords length * 7) := by rw [Nat.pow_add]

set_option synthInstance.maxSize 512 in
/-- The first byte of `push_header` as `pop_header` reads it with the new encoding: the
    immediate bit, the type, the top bits of the length and the extension bit. -/
theorem firstByte_bits : ∀ imm < 2, ∀ type < 8, ∀ e < 2, ∀ top < 8,
    (((imm <<< 7) ||| (type <<< 4) ||| (e <<< 3) ||| top) % 256) >>> 7 = imm ∧
      ((((imm <<< 7) ||| (type <<< 4) ||| (e <<< 3) ||| top) % 256) >>> 4) &&& 0x7 = type ∧
      (((imm <<< 7) ||| (type <<< 4) ||| (e <<< 3) ||| top) % 256) &&& 0x7 = top ∧
      ((((imm <<< 7) ||| (type <<< 4) ||| (e <<< 3) ||| top) % 256) &&& (1 <<< 3) ≠ 0 ↔
        e = 1) := by
  decide

theorem pushHeader_popHeader {imm type length : ℕ} (hi : imm ≤ 1) (ht : type < 8)
    (hl : length < 2 ^ 64) (b rest : List ℕ) :
    ∃ bytes, pushHeader b imm type length = some (b ++ bytes) ∧
      popHeader false (bytes ++ rest) = some ((imm, type, length), rest) := by
  obtain ⟨himm, htype, htop, hext⟩ := firstByte_bits imm (by omega) type ht
    (if extWords length ≠ 0 then 1 else 0) (by split <;> decide) _ (extWords_top hl)
  refine ⟨_ :: headerWords length (extWords length), by unfold pushHeader; exact if_pos ht, ?_⟩
  rw [List.cons_append, popHeader]
  simp only [Bool.false_eq_true, if_false]
  rw [himm, htype, htop]
  by_cases hw : extWords length = 0
  · -- no extension word: the three bits of the first byte are the whole length
    rw [if_neg (by rw [hext]; simp [hw])]
    simp [hw, headerWords]
  · -- the extension words hold the groups below the top bits
    obtain ⟨n, hn⟩ := Nat.exists_eq_succ_of_ne_zero hw
    rw [if_pos (by rw [hext]; simp [hw]), hn, popGroups_headerWords hl rest n]
    rfl

theorem header_varint_roundtrip :
    (∀ (b rest : List ℕ) (imm type length : ℕ), imm ≤ 1 → type < 8 → length < 2 ^ 64 →
      ∃ bytes, pushHeader b imm type length = some (b ++ bytes) ∧
        popHeader false (bytes ++ rest) = some ((imm, type, length), rest)) ∧
    (∀ (b rest : List ℕ) (x : ℕ), x < 2 ^ 64 →
      ∃ bytes, pushVarint b x = b ++ bytes ∧ bytes.length ≤ 10 ∧
        popVarint (bytes ++ rest) = some (x, rest)) :=
  ⟨fun b rest _ _ _ hi ht hl => pushHeader_popHeader hi ht hl b rest,
    fun b rest _ hx => pushVarint_popVarint hx b rest⟩

/-- At the largest `u64`, with a byte after the encoding. -/
theorem header_varint_roundtrip_max :
    (∃ bytes, pushHeader [] 1 7 (2 ^ 64 - 1) = some ([] ++ bytes) ∧
      popHeader false (bytes ++ [0]) = some ((1, 7, 2 ^ 64 - 1), [0])) ∧
    (∃ bytes, pushVarint [] (2 ^ 64 - 1) = [] ++ bytes ∧ bytes.length ≤ 10 ∧
      popVarint (bytes ++ [0]) = some (2 ^ 64 - 1, [0])) :=
  ⟨header_varint_roundtrip.1 [] [0] 1 7 (2 ^ 64 - 1) (by decide) (by decide) (by decide),
    header_varint_roundtrip.2 [] [0] (2 ^ 64 - 1) (by decide)⟩

end Nanos.TupleEncoding
