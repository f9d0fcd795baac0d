import Mathlib.Data.List.Range
import Mathlib.Algebra.Group.Nat.Defs

set_option autoImplicit false

/-!
# Bits of 64-bit words

A `UInt64` read as its bits `0 … 63`, and an array of such words read as one sequence of
bits: bit `i` of the array is bit `i % 64` of word `i / 64`. The lemmas give the bits of
the bitwise operations, of the low masks `2^x - 1` and of a shifted word, so that a word
operation is reasoned about bit by bit. `firstClear` is the first clear bit of a range of
a bit sequence, the specification of a first-fit search.
-/

namespace Nanos.WordBits

/-- Bit `j` of a 64-bit word. -/
def bit (w : UInt64) (j : ℕ) : Bool := w.toBitVec.getLsbD j

@[simp] theorem bit_and (a b : UInt64) (j : ℕ) : bit (a &&& b) j = (bit a j && bit b j) := by
  simp [bit]

@[simp] theorem bit_or (a b : UInt64) (j : ℕ) : bit (a ||| b) j = (bit a j || bit b j) := by
  simp [bit]

@[simp] theorem bit_xor (a b : UInt64) (j : ℕ) : bit (a ^^^ b) j = (bit a j ^^ bit b j) := by
  simp [bit]

@[simp] theorem bit_not (a : UInt64) (j : ℕ) : bit (~~~a) j = (decide (j < 64) && !bit a j) := by
  simp [bit]

@[simp] theorem bit_zero (j : ℕ) : bit 0 j = false := by
  simp [bit]

theorem bit_of_le {j : ℕ} (w : UInt64) (h : 64 ≤ j) : bit w j = false :=
  BitVec.getLsbD_of_ge _ _ h

@[simp] theorem bit_neg_one (j : ℕ) : bit (-1) j = decide (j < 64) := by
  have h : (-1 : UInt64) = ~~~0 := by decide
  rw [h, bit_not, bit_zero, Bool.not_false, Bool.and_true]

/-- A shift by less than the word size moves every bit up, and drops those past bit 63. -/
theorem bit_shiftLeft (a : UInt64) {k : ℕ} (hk : k < 64) (j : ℕ) :
    bit (a <<< k.toUInt64) j = (decide (j < 64) && decide (k ≤ j) && bit a (j - k)) := by
  have hnat : k.toUInt64.toNat = k := UInt64.toNat_ofNat_of_lt' (by simp only [UInt64.size]; omega)
  have hk' : (k.toUInt64.toBitVec % 64).toNat = k := by
    simp only [BitVec.toNat_umod, UInt64.toNat_toBitVec, hnat, show (64 : BitVec 64).toNat = 64 from rfl]
    omega
  simp only [bit, UInt64.toBitVec_shiftLeft, BitVec.shiftLeft_eq', hk', BitVec.getLsbD_shiftLeft]
  by_cases hj : j < 64 <;> by_cases hkj : k ≤ j <;> simp [hj, hkj]

/-- `(1 << x) - 1`: the `x` low bits. -/
def lowMask (x : ℕ) : UInt64 := (1 <<< x.toUInt64) - 1

theorem toNat_lowMask {x : ℕ} (hx : x < 64) : (lowMask x).toNat = 2 ^ x - 1 := by
  have hlt : 2 ^ x < 2 ^ 64 := Nat.pow_lt_pow_right (by decide) hx
  have hnat : x.toUInt64.toNat = x := UInt64.toNat_ofNat_of_lt' (by simp only [UInt64.size]; omega)
  have hshift : ((1 : UInt64) <<< x.toUInt64).toNat = 2 ^ x := by
    rw [UInt64.toNat_shiftLeft, hnat, Nat.mod_eq_of_lt hx, UInt64.toNat_one, Nat.one_shiftLeft,
      Nat.mod_eq_of_lt hlt]
  have hpos : 1 ≤ 2 ^ x := Nat.one_le_two_pow
  rw [lowMask, UInt64.toNat_sub_of_le _ _ (by simp [UInt64.le_iff_toNat_le, hshift, hpos]), hshift]
  rfl

@[simp] theorem bit_lowMask {x : ℕ} (hx : x < 64) (j : ℕ) : bit (lowMask x) j = decide (j < x) := by
  rw [bit, ← BitVec.testBit_toNat, UInt64.toNat_toBitVec, toNat_lowMask hx, Nat.testBit_two_pow_sub_one]

theorem ext_bit {a b : UInt64} (h : ∀ j < 64, bit a j = bit b j) : a = b := by
  apply UInt64.toBitVec_inj.1
  apply BitVec.eq_of_getLsbD_eq
  intro j hj
  exact h j hj

theorem and_eq_zero_iff {a b : UInt64} : a &&& b = 0 ↔ ∀ j < 64, bit a j = true → bit b j = false := by
  constructor
  · intro h j _ ha
    have := congrArg (bit · j) h
    simpa [ha] using this
  · intro h
    apply ext_bit
    intro j hj
    cases ha : bit a j
    · simp [ha]
    · simp [ha, h j hj ha]

theorem eq_neg_one_iff {a : UInt64} : a = -1 ↔ ∀ j < 64, bit a j = true := by
  constructor
  · rintro rfl j hj
    simp [hj]
  · intro h
    apply ext_bit
    intro j hj
    simp [h j hj, hj]

/-- The set bits of `w` are those of `[off, off + len)` below 64. -/
def IsWindow (w : UInt64) (off len : ℕ) : Prop :=
  ∀ j, bit w j = (decide (j < 64) && decide (off ≤ j) && decide (j < off + len))

theorem isWindow_lowMask {x : ℕ} (hx : x < 64) : IsWindow (lowMask x) 0 x := by
  intro j
  rw [bit_lowMask hx, Bool.eq_iff_iff]
  simp only [decide_eq_true_eq, Bool.and_eq_true]
  constructor <;> intro h <;> omega

theorem IsWindow.shiftLeft {w : UInt64} {off len k : ℕ} (h : IsWindow w off len) (hk : k < 64) :
    IsWindow (w <<< k.toUInt64) (off + k) len := by
  intro j
  rw [bit_shiftLeft w hk, h, Bool.eq_iff_iff]
  simp only [Bool.and_eq_true, decide_eq_true_eq]
  constructor
  · intro h
    omega
  · intro h
    omega

/-- A word that shares no bit with a window is clear on it. -/
theorem IsWindow.clear_of_and_eq_zero {m a : UInt64} {off len : ℕ} (h : IsWindow m off len)
    (hz : a &&& m = 0) : ∀ j, off ≤ j → j < 64 → j < off + len → bit a j = false := by
  intro j h1 h2 h3
  cases ha : bit a j
  · rfl
  · have hm := and_eq_zero_iff.1 hz j h2 ha
    simp [h j, h1, h2, h3] at hm

/-- Against a window of one bit, the test is that bit. -/
theorem IsWindow.and_eq_zero_iff_single {m a : UInt64} {off : ℕ} (h : IsWindow m off 1)
    (hoff : off < 64) : a &&& m = 0 ↔ bit a off = false := by
  constructor
  · intro hz
    exact h.clear_of_and_eq_zero hz off le_rfl hoff (by omega)
  · intro ha
    apply and_eq_zero_iff.2
    intro j hj hb
    rw [h j, Bool.eq_false_iff]
    simp only [ne_eq, Bool.and_eq_true, decide_eq_true_eq, not_and]
    intro h1 h2
    obtain rfl : j = off := by omega
    simp [ha] at hb

/-! ## Arrays of words -/

/-- Bit `i` of an array of words. -/
def get (m : ℕ → UInt64) (i : ℕ) : Bool := bit (m (i / 64)) (i % 64)

theorem get_update (m : ℕ → UInt64) (w : ℕ) (x : UInt64) (i : ℕ) :
    get (Function.update m w x) i = if i / 64 = w then bit x (i % 64) else get m i := by
  by_cases h : i / 64 = w
  · subst h
    simp [get]
  · simp [get, h]

/-- A statement over `[a, c)` is one over `[a, b)` and one over `[b, c)`. -/
theorem forall_Ico_split {P : ℕ → Prop} {a b c : ℕ} (hab : a ≤ b) (hbc : b ≤ c) :
    (∀ k, a ≤ k → k < c → P k) ↔ (∀ k, a ≤ k → k < b → P k) ∧ ∀ k, b ≤ k → k < c → P k := by
  constructor
  · intro h
    exact ⟨fun k h1 h2 => h k h1 (by omega), fun k h1 h2 => h k (by omega) h2⟩
  · rintro ⟨h1, h2⟩ k hk1 hk2
    by_cases hk : k < b
    · exact h1 k hk1 hk
    · exact h2 k (by omega) hk2

/-- The bits of word `w`, by offset or by index. -/
theorem forall_word_iff {P : ℕ → Prop} (w : ℕ) :
    (∀ j < 64, P (64 * w + j)) ↔ ∀ k, 64 * w ≤ k → k < 64 * w + 64 → P k := by
  constructor
  · intro h k h1 h2
    have := h (k - 64 * w) (by omega)
    rwa [Nat.add_sub_cancel' h1] at this
  · intro h j hj
    exact h _ (by omega) (by omega)

/-! ## First-fit -/

/-- The first index in `[s, e)` whose bit is clear. -/
def firstClear (g : ℕ → Bool) (s e : ℕ) : Option ℕ :=
  (List.range' s (e - s)).find? fun i => !g i

variable {g : ℕ → Bool} {s e : ℕ}

theorem firstClear_of_le (h : e ≤ s) : firstClear g s e = none := by
  simp [firstClear, Nat.sub_eq_zero_of_le h]

theorem firstClear_of_clear (h : s < e) (hg : g s = false) : firstClear g s e = some s := by
  obtain ⟨n, hn⟩ : ∃ n, e - s = n + 1 := ⟨e - s - 1, by omega⟩
  simp [firstClear, hn, List.range'_succ, hg]

theorem firstClear_of_set (hg : g s = true) : firstClear g s e = firstClear g (s + 1) e := by
  by_cases h : s < e
  · obtain ⟨n, hn⟩ : ∃ n, e - s = n + 1 := ⟨e - s - 1, by omega⟩
    have hn' : e - (s + 1) = n := by omega
    simp [firstClear, hn, hn', List.range'_succ, hg]
  · rw [firstClear_of_le (by omega), firstClear_of_le (by omega)]

/-- Skipping indices that are all set. -/
theorem firstClear_of_set_below {t : ℕ} (hst : s ≤ t) (hg : ∀ i, s ≤ i → i < t → g i = true) :
    firstClear g s e = firstClear g t e := by
  induction t, hst using Nat.le_induction with
  | base => rfl
  | succ t hst ih =>
    rw [ih fun i h1 h2 => hg i h1 (by omega), firstClear_of_set (hg t hst (by omega))]

theorem firstClear_eq_some_iff {x : ℕ} :
    firstClear g s e = some x ↔ s ≤ x ∧ x < e ∧ g x = false ∧ ∀ i, s ≤ i → i < x → g i = true := by
  -- induction on the length of the range, peeling its first index
  induction hk : e - s generalizing s with
  | zero =>
    rw [firstClear_of_le (by omega)]
    simp only [reduceCtorEq, false_iff]
    omega
  | succ k ih =>
    cases hs : g s
    · rw [firstClear_of_clear (by omega) hs, Option.some_inj]
      constructor
      · rintro rfl
        exact ⟨le_rfl, by omega, hs, fun i h1 h2 => absurd h2 (by omega)⟩
      · rintro ⟨h1, -, -, hlt⟩
        by_contra hne
        exact absurd (hlt s le_rfl (by omega)) (by simp [hs])
    · rw [firstClear_of_set hs, ih (by omega)]
      constructor
      · rintro ⟨h1, h2, h3, hlt⟩
        refine ⟨by omega, h2, h3, fun i hi1 hi2 => ?_⟩
        rcases Nat.eq_or_lt_of_le hi1 with rfl | hi1
        · exact hs
        · exact hlt i hi1 hi2
      · rintro ⟨h1, h2, h3, hlt⟩
        have hx : x ≠ s := by rintro rfl; simp [hs] at h3
        exact ⟨by omega, h2, h3, fun i hi1 hi2 => hlt i (by omega) hi2⟩

theorem firstClear_eq_none_iff : firstClear g s e = none ↔ ∀ i, s ≤ i → i < e → g i = true := by
  induction hk : e - s generalizing s with
  | zero =>
    rw [firstClear_of_le (by omega)]
    simp only [true_iff]
    intro i h1 h2
    omega
  | succ k ih =>
    cases hs : g s
    · rw [firstClear_of_clear (by omega) hs]
      simp only [reduceCtorEq, false_iff, not_forall]
      exact ⟨s, le_rfl, by omega, by simp [hs]⟩
    · rw [firstClear_of_set hs, ih (by omega)]
      constructor
      · intro h i hi1 hi2
        rcases Nat.eq_or_lt_of_le hi1 with rfl | hi1
        · exact hs
        · exact h i hi1 hi2
      · intro h i hi1 hi2
        exact h i (by omega) hi2

end Nanos.WordBits
