import Nanos.WordBits

set_option autoImplicit false

/-!
# `runtime/bitmap.c`: the bitmap allocator

A bitmap is `maxbits` bits in `u64` words, here `UInt64`; bit `i` set means allocated. The sums of
bit indices that `for_range_in_map`, `bitmap_range_check_and_set` and `bitmap_dealloc` make wrap at
`2^64` (`range_check_and_set_wraps`), and `bitmapRange_spec` is about ranges that end below it.

`bitmap_alloc_internal` steps candidates by the stride, the power of two at or above `nbits`.
Below a stride of 64 it tests one word against `MASK(nbits) << word_offset`, which holds the whole
candidate only from a start aligned to the stride (`bitmapAllocInternal_spec`); from an unaligned
start a candidate that crosses a word is tested on its first word alone.
-/

namespace Nanos
open WordBits

/-! ## `runtime.h` -/

/-- `find_order(x)`: the least `k` with `x ≤ 2^k`; `msb(x - 1) + 1` for `x > 1`. -/
def findOrder (x : ℕ) : ℕ := if x > 1 then Nat.log2 (x - 1) + 1 else 0

/-- `pad(x, s)` for a power of two `s`: `((x - 1) & ~(s - 1)) + s`, the least multiple of
    `s` at or above `x`; `x - 1` wraps at zero, so zero stays zero. -/
def pad (x s : ℕ) : ℕ := (x + (s - 1)) / s * s

theorem le_two_pow_findOrder (x : ℕ) : x ≤ 2 ^ findOrder x := by
  unfold findOrder
  split
  · have h := Nat.lt_log2_self (n := x - 1)
    rw [Nat.pow_succ]
    omega
  · simp only [Nat.pow_zero]
    omega

structure Bitmap where
  maxbits : ℕ
  words : ℕ → UInt64

namespace Bitmap

def allocateBitmap (length : ℕ) : Bitmap := ⟨length, fun _ => 0⟩

/-- `word_op(w, mask, set, val)`: with `set` the word with the bits of `mask` made `val`;
    else the word is kept and the result says whether the bits of `mask` all equal `val`. -/
def wordOp (w m : UInt64) (set val : Bool) : UInt64 × Bool :=
  if set then (if val then w ||| m else w &&& ~~~m, true)
  else
    let masked := m &&& w
    (w, (if val then masked else masked ^^^ m) == m)

theorem bit_wordOp_set (w m : UInt64) (val : Bool) (j : ℕ) :
    bit (wordOp w m true val).1 j = if bit m j then val else bit w j := by
  by_cases hj : j < 64
  · cases hm : bit m j <;> cases val <;> simp [wordOp, hj, hm]
  · simp [bit_of_le _ (Nat.le_of_not_lt hj)]

theorem wordOp_check_snd (w m : UInt64) (val : Bool) :
    (wordOp w m false val).2 = true ↔ ∀ j < 64, bit m j = true → bit w j = val := by
  simp only [wordOp, Bool.false_eq_true, if_false, beq_iff_eq]
  constructor
  · intro h j _ hm
    have hb := congrArg (bit · j) h
    cases val
    · simpa [hm] using hb
    · simpa [hm] using hb
  · intro h
    apply ext_bit
    intro j hj
    cases hm : bit m j
    · cases val <;> simp [hm]
    · cases val <;> simp [hm, h j hj hm]

def applyWordOp (words : ℕ → UInt64) (i : ℕ) (m : UInt64) (set val : Bool) :
    (ℕ → UInt64) × Bool :=
  let r := wordOp (words i) m set val
  (Function.update words i r.1, r.2)

theorem get_word (words : ℕ → UInt64) (i : ℕ) {j : ℕ} (hj : j < 64) :
    WordBits.get words (64 * i + j) = bit (words i) j := by
  simp only [WordBits.get]
  congr 2 <;> omega

theorem get_applyWordOp_set (words : ℕ → UInt64) (i : ℕ) (m : UInt64) (val : Bool) (k : ℕ) :
    WordBits.get (applyWordOp words i m true val).1 k =
      if k / 64 = i ∧ bit m (k % 64) = true then val else WordBits.get words k := by
  simp only [applyWordOp, get_update]
  by_cases hk : k / 64 = i
  · subst hk
    simp [bit_wordOp_set, WordBits.get]
  · simp [hk]

@[simp] theorem applyWordOp_set_snd (words : ℕ → UInt64) (i : ℕ) (m : UInt64) (val : Bool) :
    (applyWordOp words i m true val).2 = true := by
  simp [applyWordOp, wordOp]

@[simp] theorem applyWordOp_check_fst (words : ℕ → UInt64) (i : ℕ) (m : UInt64) (val : Bool) :
    (applyWordOp words i m false val).1 = words := by
  simp [applyWordOp, wordOp]

theorem applyWordOp_check_snd (words : ℕ → UInt64) (i : ℕ) (m : UInt64) (val : Bool) :
    (applyWordOp words i m false val).2 = true ↔
      ∀ j < 64, bit m j = true → WordBits.get words (64 * i + j) = val := by
  simp only [applyWordOp, wordOp_check_snd]
  constructor
  · intro h j hj hm
    rw [get_word _ _ hj]
    exact h j hj hm
  · intro h j hj hm
    rw [← get_word _ _ hj]
    exact h j hj hm

/-- The loop of `for_range_in_map` over the `n` whole words from word `w`. -/
def fullWords (set val : Bool) : (ℕ → UInt64) → ℕ → ℕ → (ℕ → UInt64) × Bool
  | words, _, 0 => (words, true)
  | words, w, n + 1 =>
    let r := applyWordOp words w (-1) set val
    if r.2 then fullWords set val r.1 (w + 1) n else (r.1, false)

@[simp] theorem fullWords_check_fst (val : Bool) (words : ℕ → UInt64) (w n : ℕ) :
    (fullWords false val words w n).1 = words := by
  induction n generalizing w with
  | zero => rfl
  | succ n ih =>
    simp only [fullWords, applyWordOp_check_fst]
    split
    · exact ih (w + 1)
    · rfl

theorem fullWords_check_snd (val : Bool) (words : ℕ → UInt64) (w n : ℕ) :
    (fullWords false val words w n).2 = true ↔
      ∀ k, 64 * w ≤ k → k < 64 * (w + n) → WordBits.get words k = val := by
  induction n generalizing w with
  | zero =>
    simp only [fullWords, true_iff]
    intro k h1 h2
    omega
  | succ n ih =>
    -- the word `w`, then the `n` words after it
    have hword : (applyWordOp words w (-1) false val).2 = true ↔
        ∀ k, 64 * w ≤ k → k < 64 * w + 64 → WordBits.get words k = val := by
      rw [applyWordOp_check_snd, ← forall_word_iff]
      constructor
      · intro h j hj
        exact h j hj (by simp [hj])
      · intro h j hj _
        exact h j hj
    simp only [fullWords, applyWordOp_check_fst]
    rw [forall_Ico_split (show 64 * w ≤ 64 * w + 64 by omega) (show 64 * w + 64 ≤ 64 * (w + (n + 1)) by omega)]
    split
    · next hr =>
      rw [ih (w + 1), show 64 * (w + 1) = 64 * w + 64 by omega, show w + 1 + n = w + (n + 1) by omega]
      exact ⟨fun h => ⟨hword.1 hr, h⟩, fun h => h.2⟩
    · next hr =>
      simp only [Bool.false_eq_true, false_iff, not_and]
      intro h
      exact absurd (hword.2 h) hr

theorem fullWords_set (val : Bool) (words : ℕ → UInt64) (w n : ℕ) :
    (fullWords true val words w n).2 = true ∧ ∀ k, WordBits.get (fullWords true val words w n).1 k =
      if 64 * w ≤ k ∧ k < 64 * (w + n) then val else WordBits.get words k := by
  induction n generalizing words w with
  | zero =>
    refine ⟨rfl, fun k => ?_⟩
    rw [if_neg (by omega)]
    rfl
  | succ n ih =>
    simp only [fullWords, applyWordOp_set_snd, if_true]
    obtain ⟨h2, hget⟩ := ih (applyWordOp words w (-1) true val).1 (w + 1)
    refine ⟨h2, fun k => ?_⟩
    rw [hget, get_applyWordOp_set, bit_neg_one]
    simp only [Nat.mod_lt k (show 0 < 64 by decide), decide_true, and_true]
    -- `k` is in word `w`, in the words after it, or outside both
    split_ifs <;> first | rfl | omega

/-- The mask of the first word of `for_range_in_map`: the bits from `head` on, and, when
    the range ends in that word (`single`), those below `tail`. -/
def firstWordMask (head tail : ℕ) (single : Bool) : UInt64 :=
  let m : UInt64 := if head ≠ 0 then -1 &&& ~~~(lowMask head) else -1
  if tail ≠ 0 ∧ single then m &&& lowMask tail else m

theorem bit_firstWordMask {head tail nbits : ℕ} (hh : head < 64) (ht : tail = (head + nbits) % 64)
    (hn : 0 < nbits) (j : ℕ) :
    bit (firstWordMask head tail (head + nbits ≤ 64)) j =
      decide (head ≤ j ∧ j < 64 ∧ j < head + nbits) := by
  have htl : tail < 64 := by omega
  -- the bits from `head` on
  have hfrom : bit (if head ≠ 0 then -1 &&& ~~~(lowMask head) else -1) j = decide (head ≤ j ∧ j < 64) := by
    by_cases h0 : head = 0
    · simp [h0]
    · rw [if_pos h0, bit_and, bit_neg_one, bit_not, bit_lowMask hh, Bool.eq_iff_iff]
      simp only [Bool.and_eq_true, decide_eq_true_eq, Bool.not_eq_true', decide_eq_false_iff_not]
      constructor <;> intro h <;> omega
  unfold firstWordMask
  by_cases h1 : tail ≠ 0 ∧ head + nbits ≤ 64
  · -- the range ends inside this word, at `tail`
    rw [if_pos ⟨h1.1, decide_eq_true h1.2⟩, bit_and, hfrom, bit_lowMask htl, Bool.eq_iff_iff]
    simp only [Bool.and_eq_true, decide_eq_true_eq]
    constructor <;> intro h <;> omega
  · -- the range runs to the end of this word
    rw [if_neg fun h => h1 ⟨h.1, of_decide_eq_true h.2⟩, hfrom, Bool.eq_iff_iff, decide_eq_true_iff,
      decide_eq_true_iff]
    constructor <;> intro h <;> omega

/-- `for_range_in_map(base, start, nbits, set, val)`. Its sums are `u64` ones: `start + nbits`,
    `head + nbits` and the step to the next word wrap at `2^64`. -/
def forRangeInMap (words : ℕ → UInt64) (start nbits : ℕ) (set val : Bool) :
    (ℕ → UInt64) × Bool :=
  let end_ := (start + nbits) % 2 ^ 64
  let head := start % 64
  let tail := end_ % 64
  if nbits = 0 then (words, true) else
  let single := decide ((head + nbits) % 2 ^ 64 ≤ 64)
  -- the first word is always handled on its own
  let first := applyWordOp words (start / 64) (firstWordMask head tail single) set val
  if !first.2 || single then first else
  let start := (start + (64 - head)) % 2 ^ 64
  let mid := fullWords set val first.1 (start / 64) (end_ / 64 - start / 64)
  if !mid.2 then (mid.1, false) else
  if tail ≠ 0 then applyWordOp mid.1 (end_ / 64) (lowMask tail) set val
  else (mid.1, true)

section forRangeInMap
variable (words : ℕ → UInt64) (start nbits : ℕ) (val : Bool)

theorem get_applyWordOp_firstWordMask (h0 : 0 < nbits) (k : ℕ) :
    WordBits.get (applyWordOp words (start / 64)
      (firstWordMask (start % 64) ((start + nbits) % 64) (start % 64 + nbits ≤ 64)) true val).1 k =
      if start ≤ k ∧ k < start + nbits ∧ k / 64 = start / 64 then val else WordBits.get words k := by
  rw [get_applyWordOp_set, bit_firstWordMask (Nat.mod_lt _ (by decide)) (by omega) h0]
  simp only [decide_eq_true_eq]
  split_ifs <;> first | rfl | omega

theorem applyWordOp_firstWordMask_check (h0 : 0 < nbits) :
    (applyWordOp words (start / 64)
      (firstWordMask (start % 64) ((start + nbits) % 64) (start % 64 + nbits ≤ 64)) false val).2 =
        true ↔
      ∀ k, start ≤ k → k < min (start + nbits) (64 * (start / 64) + 64) → WordBits.get words k = val := by
  rw [applyWordOp_check_snd]
  constructor
  · intro h k h1 h2
    have hj := h (k - 64 * (start / 64)) (by omega)
    rw [bit_firstWordMask (Nat.mod_lt _ (by decide)) (by omega) h0, decide_eq_true_iff,
      show 64 * (start / 64) + (k - 64 * (start / 64)) = k by omega] at hj
    exact hj (by omega)
  · intro h j hj hm
    rw [bit_firstWordMask (Nat.mod_lt _ (by decide)) (by omega) h0, decide_eq_true_iff] at hm
    exact h _ (by omega) (by omega)

variable {start nbits} in
/-- A range that ends below `2^64`: the `u64` sums of `for_range_in_map` do not wrap, and
    neither does the step to the second word when the range does not end in the first. -/
theorem forRangeInMap_sums (h : start + nbits < 2 ^ 64) :
    (start + nbits) % 2 ^ 64 = start + nbits ∧
      (start % 64 + nbits) % 2 ^ 64 = start % 64 + nbits ∧
      (¬ start % 64 + nbits ≤ 64 → (start + (64 - start % 64)) % 2 ^ 64 = start + (64 - start % 64)) :=
  ⟨Nat.mod_eq_of_lt h, Nat.mod_eq_of_lt (by omega), fun _ => Nat.mod_eq_of_lt (by omega)⟩

/-- Setting a range makes exactly its bits `val`. -/
theorem forRangeInMap_set (h : start + nbits < 2 ^ 64) :
    (forRangeInMap words start nbits true val).2 = true ∧ ∀ k,
      WordBits.get (forRangeInMap words start nbits true val).1 k =
        if start ≤ k ∧ k < start + nbits then val else WordBits.get words k := by
  obtain ⟨hend, hsingle, hstep⟩ := forRangeInMap_sums h
  unfold forRangeInMap
  by_cases h0 : nbits = 0
  · refine ⟨by simp [h0], fun k => ?_⟩
    simp only [h0, if_true]
    rw [if_neg (by omega)]
  have hfirst := get_applyWordOp_firstWordMask words start nbits val (Nat.pos_of_ne_zero h0)
  simp only [h0, if_false, hend, hsingle, applyWordOp_set_snd, Bool.not_true, Bool.false_or,
    decide_eq_true_eq]
  split
  · -- the range ends in the first word
    refine ⟨rfl, fun k => ?_⟩
    rw [hfirst]
    split_ifs <;> first | rfl | omega
  · -- then the whole words, then the bits of the last word
    next hs =>
    rw [hstep hs]
    obtain ⟨hm2, hmid⟩ := fullWords_set val (applyWordOp words (start / 64)
      (firstWordMask (start % 64) ((start + nbits) % 64) (start % 64 + nbits ≤ 64)) true val).1
      ((start + (64 - start % 64)) / 64) ((start + nbits) / 64 - (start + (64 - start % 64)) / 64)
    simp only [hm2, Bool.not_true, Bool.false_eq_true, if_false]
    split
    · refine ⟨applyWordOp_set_snd .., fun k => ?_⟩
      rw [get_applyWordOp_set, bit_lowMask (Nat.mod_lt _ (by decide)), hmid, hfirst]
      simp only [decide_eq_true_eq]
      split_ifs <;> first | rfl | omega
    · refine ⟨rfl, fun k => ?_⟩
      rw [hmid, hfirst]
      split_ifs <;> first | rfl | omega

@[simp] theorem forRangeInMap_check_fst : (forRangeInMap words start nbits false val).1 = words := by
  unfold forRangeInMap
  dsimp only
  split
  · rfl
  · split
    · exact applyWordOp_check_fst ..
    · simp only [applyWordOp_check_fst, fullWords_check_fst]
      split
      · rfl
      · split
        · exact applyWordOp_check_fst ..
        · rfl

/-- A test is true exactly when every bit of the range is `val`. -/
theorem forRangeInMap_check_snd (h : start + nbits < 2 ^ 64) :
    (forRangeInMap words start nbits false val).2 = true ↔
      ∀ k, start ≤ k → k < start + nbits → WordBits.get words k = val := by
  obtain ⟨hend, hsingle, hstep⟩ := forRangeInMap_sums h
  unfold forRangeInMap
  by_cases h0 : nbits = 0
  · simp only [h0, if_true, true_iff]
    intro k h1 h2
    omega
  have hfirst := applyWordOp_firstWordMask_check words start nbits val (Nat.pos_of_ne_zero h0)
  simp only [h0, if_false, hend, hsingle, applyWordOp_check_fst, fullWords_check_fst]
  by_cases hs : start % 64 + nbits ≤ 64
  · -- the range ends in the first word
    rw [if_pos (by simp [hs]), hfirst, Nat.min_eq_left (by omega)]
  by_cases hr : (applyWordOp words (start / 64)
      (firstWordMask (start % 64) ((start + nbits) % 64) (start % 64 + nbits ≤ 64)) false val).2 = true
  swap
  · -- the first word fails the test
    rw [if_pos (by simp [hr])]
    constructor
    · intro h
      exact absurd h hr
    · intro h
      exact hfirst.2 fun k h1 h2 => h k h1 (by omega)
  -- the first word, the whole words, the bits of the last word
  rw [if_neg (by rw [hr]; simp [hs]), hstep hs]
  have hmid := fullWords_check_snd val words ((start + (64 - start % 64)) / 64)
    ((start + nbits) / 64 - (start + (64 - start % 64)) / 64)
  have hfirst' := hfirst.1 hr
  rw [Nat.min_eq_right (by omega)] at hfirst'
  rw [forall_Ico_split (b := 64 * (start / 64) + 64) (by omega) (by omega),
    forall_Ico_split (a := 64 * (start / 64) + 64) (b := 64 * ((start + nbits) / 64)) (by omega) (by omega)]
  split
  · next hm =>
    simp only [Bool.false_eq_true, false_iff, not_and]
    intro _ h
    exact absurd (hmid.2 fun k h1 h2 => h k (by omega) (by omega)) (by simpa using hm)
  · next hm =>
    simp only [Bool.not_eq_true', Bool.not_eq_false] at hm
    have hmid' := hmid.1 hm
    split
    · rw [applyWordOp_check_snd]
      constructor
      · intro h
        refine ⟨hfirst', fun k h1 h2 => hmid' k (by omega) (by omega), fun k h1 h2 => ?_⟩
        have hj := h (k % 64) (Nat.mod_lt _ (by decide))
        rw [bit_lowMask (Nat.mod_lt _ (by decide)), decide_eq_true_iff,
          show 64 * ((start + nbits) / 64) + k % 64 = k by omega] at hj
        exact hj (by omega)
      · rintro ⟨-, -, h⟩ j hj hm
        rw [bit_lowMask (Nat.mod_lt _ (by decide)), decide_eq_true_iff] at hm
        exact h _ (by omega) (by omega)
    · simp only [true_iff]
      refine ⟨hfirst', fun k h1 h2 => hmid' k (by omega) (by omega), fun k h1 h2 => ?_⟩
      omega

end forRangeInMap

/-- `bitmap_range_check_and_set(b, start, nbits, validate, set)`. The end of the range is
    checked as the `u64` sum `start + nbits`. -/
def bitmapRangeCheckAndSet (b : Bitmap) (start nbits : ℕ) (validate set : Bool) : Bitmap × Bool :=
  if start ≥ b.maxbits ∨ (start + nbits) % 2 ^ 64 > b.maxbits then (b, false)
  else if validate && !(forRangeInMap b.words start nbits false !set).2 then (b, false)
  else
    let r := forRangeInMap b.words start nbits true set
    ({ b with words := r.1 }, r.2)

inductive Scan
  | found (bit : ℕ)
  | fail
  | next

/-- The `do … while (word_offset < 64)` loop of `bitmap_alloc_internal` over the candidate
    offsets of the word at `bit`; each step moves the offset by `stride`, so 64 steps are
    enough. -/
def scanWord (bw : UInt64) (bit endbit stride : ℕ) : ℕ → ℕ → UInt64 → Scan
  | 0, _, _ => .next
  | n + 1, wordOffset, m =>
    if bit + wordOffset > endbit then .fail
    else if bw &&& m = 0 then .found (bit + wordOffset)
    else if wordOffset + stride < 64 then
      scanWord bw bit endbit stride n (wordOffset + stride) (m <<< stride.toUInt64)
    else .next

section scan
variable {bw : UInt64} {base endbit stride : ℕ}

/-- A candidate that the test of one word accepts: it steps from `off` by the stride, lies
    in the word and at or before `endbit`, and `bw` is clear on it as far as the word
    reaches. -/
theorem scanWord_found {len : ℕ} : ∀ {n off : ℕ} {m : UInt64} {x : ℕ},
    off < 64 → IsWindow m off len → scanWord bw base endbit stride n off m = .found x →
    ∃ o i, x = base + o ∧ o = off + i * stride ∧ o < 64 ∧ base + o ≤ endbit ∧
      ∀ j, o ≤ j → j < 64 → j < o + len → bit bw j = false := by
  intro n
  induction n with
  | zero =>
    intro off m x _ _ h
    cases h
  | succ n ih =>
    intro off m x hoff hm h
    unfold scanWord at h
    by_cases hgt : base + off > endbit
    · rw [if_pos hgt] at h
      cases h
    rw [if_neg hgt] at h
    by_cases hclr : bw &&& m = 0
    · -- the candidate at `off`
      rw [if_pos hclr] at h
      obtain rfl := Scan.found.inj h
      exact ⟨off, 0, rfl, by omega, hoff, by omega, hm.clear_of_and_eq_zero hclr⟩
    rw [if_neg hclr] at h
    by_cases hnext : off + stride < 64
    · rw [if_pos hnext] at h
      obtain ⟨o, i, hx, ho, ho64, hoe, hclr'⟩ := ih hnext (hm.shiftLeft (by omega)) h
      exact ⟨o, i + 1, hx, by rw [ho, Nat.succ_mul]; omega, ho64, hoe, hclr'⟩
    · rw [if_neg hnext] at h
      cases h

/-- What a scan of one word for a single bit says of the bits from `base + off`. -/
def ScanOne (g : ℕ → Bool) (off : ℕ) : Scan → Prop
  | .found x => firstClear g (base + off) (endbit + 1) = some x
  | .fail => firstClear g (base + off) (endbit + 1) = none
  | .next => base + 64 ≤ endbit + 1 ∧
      firstClear g (base + off) (endbit + 1) = firstClear g (base + 64) (endbit + 1)

/-- For a single bit the test of one word is a first-fit search over that word. -/
theorem scanWord_one {words : ℕ → UInt64} (hbase : base % 64 = 0) (hbw : bw = words (base / 64)) :
    ∀ {n off : ℕ} {m : UInt64}, off < 64 → 64 - off ≤ n → IsWindow m off 1 →
      @ScanOne base endbit (WordBits.get words) off (scanWord bw base endbit 1 n off m) := by
  have hget : ∀ j < 64, WordBits.get words (base + j) = bit bw j := by
    intro j hj
    rw [hbw, ← get_word words (base / 64) hj]
    congr 1
    omega
  intro n
  induction n with
  | zero =>
    intro off m hoff hn _
    omega
  | succ n ih =>
    intro off m hoff hn hm
    unfold scanWord
    by_cases hgt : base + off > endbit
    · rw [if_pos hgt]
      exact firstClear_of_le (by omega)
    rw [if_neg hgt]
    by_cases hclr : bw &&& m = 0
    · -- bit `off` is clear
      rw [if_pos hclr]
      have hb : WordBits.get words (base + off) = false := by
        rw [hget off hoff]
        exact (hm.and_eq_zero_iff_single hoff).1 hclr
      exact firstClear_of_clear (by omega) hb
    rw [if_neg hclr]
    have hset : WordBits.get words (base + off) = true := by
      rw [hget off hoff]
      simpa [hm.and_eq_zero_iff_single hoff] using hclr
    by_cases hnext : off + 1 < 64
    · rw [if_pos hnext]
      have h := ih hnext (by omega) (hm.shiftLeft (by omega))
      -- the same search, one bit on
      revert h
      cases scanWord bw base endbit 1 n (off + 1) (m <<< (1 : ℕ).toUInt64) with
      | found x =>
        intro h
        simp only [ScanOne] at h ⊢
        rw [firstClear_of_set hset, ← h]
        rfl
      | fail =>
        intro h
        simp only [ScanOne] at h ⊢
        rw [firstClear_of_set hset, ← h]
        rfl
      | next =>
        intro h
        simp only [ScanOne] at h ⊢
        refine ⟨h.1, ?_⟩
        rw [firstClear_of_set hset, ← h.2]
        rfl
    · -- the last bit of the word is set
      rw [if_neg hnext]
      refine ⟨by omega, ?_⟩
      rw [firstClear_of_set hset]
      congr 1
      omega

end scan

/-- The loop of `bitmap_alloc_internal` for strides below 64, one word a step; `n` counts
    the words left up to `endbit`. -/
def allocSingleWord (nbits stride endbit : ℕ) (words : ℕ → UInt64) :
    ℕ → ℕ → Option ℕ × (ℕ → UInt64)
  | 0, _ => (none, words)
  | n + 1, bit =>
    if bit ≤ endbit then
      let wordOffset := bit % 64
      let bit := bit - wordOffset
      let bw := words (bit / 64)
      -- skip full words
      if bw = -1 then allocSingleWord nbits stride endbit words n (bit + 64)
      else match scanWord bw bit endbit stride 64 wordOffset (lowMask nbits <<< wordOffset.toUInt64) with
        | .found b => (some b, (forRangeInMap words b nbits true true).1)
        | .fail => (none, words)
        | .next => allocSingleWord nbits stride endbit words n (bit + 64)
    else (none, words)

theorem add_stride_le_64 {o stride : ℕ} (h64 : stride ∣ 64) (ho : stride ∣ o) (hlt : o < 64) :
    o + stride ≤ 64 :=
  Nat.le_of_lt_add_of_dvd (by omega) (Nat.dvd_add ho (Nat.dvd_refl stride)) h64

section singleWord
variable {nbits stride endbit : ℕ} {words : ℕ → UInt64}

/-- The loop over words ends with nothing, or with the bits at `x` set: `x` is at or after
    the start and at or before `endbit`, and from a start aligned to the stride every bit of
    the candidate was clear. -/
theorem allocSingleWord_spec (h64 : stride ∣ 64) (hn : nbits ≤ stride) (hs64 : stride < 64) :
    ∀ n bit, allocSingleWord nbits stride endbit words n bit = (none, words) ∨
      ∃ x, allocSingleWord nbits stride endbit words n bit =
          (some x, (forRangeInMap words x nbits true true).1) ∧ bit ≤ x ∧ x ≤ endbit ∧
        (bit % stride = 0 → ∀ k, x ≤ k → k < x + nbits → WordBits.get words k = false) := by
  intro n
  induction n with
  | zero => intro bit; exact .inl rfl
  | succ n ih =>
    intro bit
    unfold allocSingleWord
    by_cases hb : bit ≤ endbit
    swap
    · rw [if_neg hb]
      exact .inl rfl
    rw [if_pos hb]
    dsimp only
    -- the next word starts at a multiple of 64, so it is aligned
    have hnext : (allocSingleWord nbits stride endbit words n (bit - bit % 64 + 64)) = (none, words) ∨
        ∃ x, allocSingleWord nbits stride endbit words n (bit - bit % 64 + 64) =
          (some x, (forRangeInMap words x nbits true true).1) ∧ bit ≤ x ∧ x ≤ endbit ∧
          (bit % stride = 0 → ∀ k, x ≤ k → k < x + nbits → WordBits.get words k = false) := by
      rcases ih (bit - bit % 64 + 64) with h | ⟨x, hx, h1, h2, h3⟩
      · exact .inl h
      · have hal : (bit - bit % 64 + 64) % stride = 0 :=
          Nat.mod_eq_zero_of_dvd (Nat.dvd_add (Nat.dvd_trans h64 (by omega)) h64)
        exact .inr ⟨x, hx, by omega, h2, fun _ => h3 hal⟩
    split
    · exact hnext
    have hmask : IsWindow (lowMask nbits <<< (bit % 64).toUInt64) (bit % 64) nbits := by
      have h := (isWindow_lowMask (show nbits < 64 by omega)).shiftLeft (Nat.mod_lt bit (by decide))
      rwa [Nat.zero_add] at h
    split
    · next x hx =>
      right
      obtain ⟨o, i, rfl, ho, ho64, hoe, hclr⟩ := scanWord_found (Nat.mod_lt bit (by decide)) hmask hx
      refine ⟨_, rfl, by omega, hoe, fun hal k h1 h2 => ?_⟩
      -- aligned: the candidate lies inside its word
      have hdvd : stride ∣ o := by
        rw [ho]
        refine Nat.dvd_add ?_ (Nat.dvd_mul_left stride i)
        exact Nat.dvd_of_mod_eq_zero (by rw [Nat.mod_mod_of_dvd _ h64]; exact hal)
      have hin := add_stride_le_64 h64 hdvd ho64
      have hk : k = 64 * ((bit - bit % 64) / 64) + (k - (bit - bit % 64)) := by omega
      rw [hk, get_word _ _ (by omega)]
      exact hclr _ (by omega) (by omega) (by omega)
    · exact .inl rfl
    · exact hnext

/-- For a single bit the loop over words is a first-fit search from `bit`. -/
theorem allocSingleWord_one : ∀ n bit, endbit / 64 + 1 - bit / 64 ≤ n →
    (allocSingleWord 1 1 endbit words n bit).1 = firstClear (WordBits.get words) bit (endbit + 1) := by
  intro n
  induction n with
  | zero =>
    intro bit hn
    exact (firstClear_of_le (by omega)).symm
  | succ n ih =>
    intro bit hn
    unfold allocSingleWord
    by_cases hb : bit ≤ endbit
    swap
    · rw [if_neg hb]
      exact (firstClear_of_le (by omega)).symm
    rw [if_pos hb]
    dsimp only
    have hbase : (bit - bit % 64) % 64 = 0 := by omega
    have hrest := ih (bit - bit % 64 + 64) (by omega)
    split
    · -- a full word: every bit from `bit` to its end is set
      next hfull =>
      rw [hrest]
      refine (firstClear_of_set_below (by omega) fun i h1 h2 => ?_).symm
      have hi : i = 64 * ((bit - bit % 64) / 64) + (i - (bit - bit % 64)) := by omega
      rw [hi, get_word _ _ (by omega), hfull]
      simp only [bit_neg_one, decide_eq_true_iff]
      omega
    have hmask : IsWindow (lowMask 1 <<< (bit % 64).toUInt64) (bit % 64) 1 := by
      have h := (isWindow_lowMask (show 1 < 64 by omega)).shiftLeft (Nat.mod_lt bit (by decide))
      rwa [Nat.zero_add] at h
    have hscan := @scanWord_one _ (bit - bit % 64) endbit words hbase rfl 64
      (bit % 64) _ (Nat.mod_lt bit (by decide)) (by omega) hmask
    have hstart : bit - bit % 64 + bit % 64 = bit := by omega
    split
    · next x hx =>
      rw [hx] at hscan
      simp only [ScanOne, hstart] at hscan
      exact hscan.symm
    · next hx =>
      rw [hx] at hscan
      simp only [ScanOne, hstart] at hscan
      exact hscan.symm
    · next hx =>
      rw [hx] at hscan
      simp only [ScanOne, hstart] at hscan
      rw [hrest, hscan.2]

end singleWord

/-- The loop of `bitmap_alloc_internal` for strides of 64 or more; `n` counts the
    candidates left up to `endbit`. -/
def allocMultiWord (nbits stride endbit : ℕ) (words : ℕ → UInt64) :
    ℕ → ℕ → Option ℕ × (ℕ → UInt64)
  | 0, _ => (none, words)
  | n + 1, bit =>
    if bit ≤ endbit then
      if (forRangeInMap words bit nbits false false).2 then
        (some bit, (forRangeInMap words bit nbits true true).1)
      else allocMultiWord nbits stride endbit words n (bit + stride)
    else (none, words)

/-- The loop over candidates tests each with `for_range_in_map`, so what it finds was
    clear. -/
theorem allocMultiWord_spec {nbits stride endbit : ℕ} {words : ℕ → UInt64} :
    ∀ n bit, allocMultiWord nbits stride endbit words n bit = (none, words) ∨
      ∃ x, allocMultiWord nbits stride endbit words n bit =
          (some x, (forRangeInMap words x nbits true true).1) ∧ bit ≤ x ∧ x ≤ endbit ∧
        (x + nbits < 2 ^ 64 → ∀ k, x ≤ k → k < x + nbits → WordBits.get words k = false) := by
  intro n
  induction n with
  | zero => intro bit; exact .inl rfl
  | succ n ih =>
    intro bit
    unfold allocMultiWord
    by_cases hb : bit ≤ endbit
    swap
    · rw [if_neg hb]
      exact .inl rfl
    rw [if_pos hb]
    split
    · next hclr =>
      exact .inr ⟨bit, rfl, le_rfl, hb, fun h => (forRangeInMap_check_snd words bit nbits false h).1 hclr⟩
    · rcases ih (bit + stride) with h | ⟨x, hx, h1, h2, h3⟩
      · exact .inl h
      · exact .inr ⟨x, hx, by omega, h2, h3⟩

/-- `bitmap_alloc_internal(b, nbits, startbit, endbit)`, `none` for `INVALID_PHYSICAL`. -/
def bitmapAllocInternal (b : Bitmap) (nbits startbit endbit : ℕ) : Option ℕ × Bitmap :=
  let stride := 2 ^ findOrder nbits
  let endbit := min endbit b.maxbits
  if startbit + nbits > endbit then (none, b) else
  let endbit := endbit - nbits
  let r :=
    if stride ≥ 64 then
      allocMultiWord nbits stride endbit b.words ((endbit - startbit) / stride + 1) startbit
    else allocSingleWord nbits stride endbit b.words (endbit / 64 + 1 - startbit / 64) startbit
  (r.1, { b with words := r.2 })

theorem findOrder_le_six {nbits : ℕ} (h : 2 ^ findOrder nbits < 64) : findOrder nbits ≤ 6 := by
  by_contra hk
  have := Nat.pow_le_pow_right (show 0 < 2 by decide) (show 6 ≤ findOrder nbits by omega)
  simp only [Nat.reducePow] at this
  omega

/-- `bitmap_alloc_internal` returns nothing and leaves the bitmap, or returns `x` and sets
    its `nbits` bits: `x` lies in the search range, and when the start is aligned to the
    stride (or the stride is a whole word or more) those bits were all clear, for a range
    that ends below `2^64` (there the test's sums do not wrap). -/
theorem bitmapAllocInternal_spec (b : Bitmap) (nbits startbit endbit : ℕ) :
    bitmapAllocInternal b nbits startbit endbit = (none, b) ∨
    ∃ x, bitmapAllocInternal b nbits startbit endbit =
        (some x, { b with words := (forRangeInMap b.words x nbits true true).1 }) ∧
      startbit ≤ x ∧ x + nbits ≤ min endbit b.maxbits ∧
      (x + nbits < 2 ^ 64 → startbit % 2 ^ findOrder nbits = 0 ∨ 64 ≤ 2 ^ findOrder nbits →
        ∀ k, x ≤ k → k < x + nbits → WordBits.get b.words k = false) := by
  unfold bitmapAllocInternal
  dsimp only
  by_cases hgt : startbit + nbits > min endbit b.maxbits
  · rw [if_pos hgt]
    exact .inl rfl
  rw [if_neg hgt]
  split
  · -- a stride of a word or more
    next hs =>
    rcases @allocMultiWord_spec nbits (2 ^ findOrder nbits) (min endbit b.maxbits - nbits) b.words
      ((min endbit b.maxbits - nbits - startbit) / 2 ^ findOrder nbits + 1) startbit with
      h | ⟨x, hx, h1, h2, h3⟩
    · rw [h]
      exact .inl rfl
    · rw [hx]
      exact .inr ⟨x, rfl, h1, by omega, fun hlt _ => h3 hlt⟩
  · -- a stride below a word: it divides 64
    next hs =>
    have h64 : 2 ^ findOrder nbits ∣ 64 :=
      Nat.pow_dvd_pow 2 (findOrder_le_six (by omega))
    rcases @allocSingleWord_spec nbits (2 ^ findOrder nbits) (min endbit b.maxbits - nbits) b.words
      h64 (le_two_pow_findOrder nbits) (by omega)
      ((min endbit b.maxbits - nbits) / 64 + 1 - startbit / 64) startbit with
      h | ⟨x, hx, h1, h2, h3⟩
    · rw [h]
      exact .inl rfl
    · rw [hx]
      refine .inr ⟨x, rfl, h1, by omega, fun _ hal => h3 ?_⟩
      rcases hal with hal | hal
      · exact hal
      · omega

/-- For a single bit `bitmap_alloc_internal` is first-fit: it returns the first clear bit
    from `startbit` on, below `endbit` and `maxbits`. -/
theorem bitmapAllocInternal_one (b : Bitmap) (startbit endbit : ℕ) :
    (bitmapAllocInternal b 1 startbit endbit).1 =
      firstClear (WordBits.get b.words) startbit (min endbit b.maxbits) := by
  unfold bitmapAllocInternal
  dsimp only
  by_cases hgt : startbit + 1 > min endbit b.maxbits
  · rw [if_pos hgt]
    exact (firstClear_of_le (by omega)).symm
  rw [if_neg hgt, if_neg (by simp [findOrder])]
  have h := @allocSingleWord_one (min endbit b.maxbits - 1) b.words
    ((min endbit b.maxbits - 1) / 64 + 1 - startbit / 64) startbit le_rfl
  simp only [findOrder, gt_iff_lt, Nat.lt_irrefl, if_false, Nat.pow_zero] at h ⊢
  rw [h, Nat.sub_add_cancel (by omega)]

def bitmapAllocWithinRange (b : Bitmap) (nbits start end_ : ℕ) : Option ℕ × Bitmap :=
  bitmapAllocInternal b nbits start end_

def crossBitmap : Bitmap := ⟨128, fun i => if i = 1 then 1 else 0⟩

/-- From a start that is not a multiple of the stride, a candidate that crosses a word is
    tested on its first word alone: the mask `MASK(2) << 63` keeps only bit 63. So
    `bitmap_alloc_within_range(b, 2, 63, 128)` returns 63 and sets bits 63 and 64, though bit
    64 was already allocated. -/
theorem alloc_within_range_reuses_set_bit :
    WordBits.get crossBitmap.words 64 = true ∧
    (bitmapAllocWithinRange crossBitmap 2 63 128).1 = some 63 ∧
    63 ≤ 64 ∧ 64 < 63 + 2 := by
  refine ⟨by decide, by decide, by omega, by omega⟩

/-- `bitmap_dealloc(b, bit, size)`: `false` when the bits are not all allocated. The end of the
    range is checked as the `u64` sum `bit + size`. -/
def bitmapDealloc (b : Bitmap) (bit size : ℕ) : Bitmap × Bool :=
  if (bit + size) % 2 ^ 64 > b.maxbits then (b, false)
  else if !(forRangeInMap b.words bit size false true).2 then (b, false)
  else ({ b with words := (forRangeInMap b.words bit size true false).1 }, true)

/-! ## Setting, testing and freeing a range -/

/-- The test of `bitmap_range_check_and_set`: the range lies within `maxbits`, and when
    validating every bit of it is `!set`. -/
def RangeSettable (b : Bitmap) (start nbits : ℕ) (validate set : Bool) : Prop :=
  start < b.maxbits ∧ start + nbits ≤ b.maxbits ∧
    (validate = true → ∀ k, start ≤ k → k < start + nbits → WordBits.get b.words k = !set)

instance (b : Bitmap) (start nbits : ℕ) (validate set : Bool) :
    Decidable (RangeSettable b start nbits validate set) :=
  inferInstanceAs (Decidable (_ ∧ _ ∧ _))

/-- For a range that ends below `2^64`, `bitmap_range_check_and_set` either makes the bits of the
    range `set`, when the range passes its test, or fails and keeps the bitmap. -/
theorem bitmapRangeCheckAndSet_eq (b : Bitmap) {start nbits : ℕ} (validate set : Bool)
    (h : start + nbits < 2 ^ 64) :
    bitmapRangeCheckAndSet b start nbits validate set =
      if RangeSettable b start nbits validate set then
        ({ b with words := (forRangeInMap b.words start nbits true set).1 }, true)
      else (b, false) := by
  unfold bitmapRangeCheckAndSet
  rw [Nat.mod_eq_of_lt h]
  dsimp only
  by_cases hb : start ≥ b.maxbits ∨ start + nbits > b.maxbits
  · rw [if_pos hb, if_neg fun h : RangeSettable b start nbits validate set => by
      obtain ⟨h1, h2, -⟩ := h
      omega]
  rw [if_neg hb]
  have hset := (forRangeInMap_set b.words start nbits set h).1
  cases validate with
  | false => rw [if_neg (by simp), if_pos ⟨by omega, by omega, by simp⟩, hset]
  | true =>
    -- the test is `for_range_in_map` with `val = !set`
    by_cases hv : (forRangeInMap b.words start nbits false !set).2 = true
    · have hall := (forRangeInMap_check_snd b.words start nbits (!set) h).1 hv
      rw [if_neg (by simp [hv]), if_pos ⟨by omega, by omega, fun _ => hall⟩, hset]
    · have hnot : ¬ ∀ k, start ≤ k → k < start + nbits → WordBits.get b.words k = !set :=
        fun hall => hv ((forRangeInMap_check_snd b.words start nbits (!set) h).2 hall)
      rw [if_pos (by simpa using hv), if_neg fun h => hnot (h.2.2 rfl)]

/-- The test of `bitmap_dealloc`: the range lies within `maxbits` and all of it is set. -/
def RangeAllocated (b : Bitmap) (bit size : ℕ) : Prop :=
  bit + size ≤ b.maxbits ∧ ∀ k, bit ≤ k → k < bit + size → WordBits.get b.words k = true

instance (b : Bitmap) (bit size : ℕ) : Decidable (RangeAllocated b bit size) :=
  inferInstanceAs (Decidable (_ ∧ _))

/-- For a range that ends below `2^64`, `bitmap_dealloc` either clears the bits of an allocated
    range or fails and keeps the bitmap. -/
theorem bitmapDealloc_eq (b : Bitmap) {bit size : ℕ} (h : bit + size < 2 ^ 64) :
    bitmapDealloc b bit size =
      if RangeAllocated b bit size then
        ({ b with words := (forRangeInMap b.words bit size true false).1 }, true)
      else (b, false) := by
  unfold bitmapDealloc
  rw [Nat.mod_eq_of_lt h]
  by_cases hb : bit + size > b.maxbits
  · rw [if_pos hb, if_neg fun h : RangeAllocated b bit size => by
      obtain ⟨h1, -⟩ := h
      omega]
  rw [if_neg hb]
  by_cases hv : (forRangeInMap b.words bit size false true).2 = true
  · rw [if_neg (by simp [hv]),
      if_pos ⟨by omega, (forRangeInMap_check_snd b.words bit size true h).1 hv⟩]
  · rw [if_pos (by simpa using hv),
      if_neg fun ha => hv ((forRangeInMap_check_snd b.words bit size true h).2 ha.2)]

theorem get_forRangeInMap_set (words : ℕ → UInt64) {start nbits : ℕ} (val : Bool)
    (h : start + nbits < 2 ^ 64) (k : ℕ) :
    WordBits.get (forRangeInMap words start nbits true val).1 k =
      if start ≤ k ∧ k < start + nbits then val else WordBits.get words k :=
  (forRangeInMap_set words start nbits val h).2 k

/-- For a range that ends below `2^64`, `bitmap_range_check_and_set(b, start, nbits, validate,
    set)` returns true exactly when the range lies within `maxbits` and, when validating, is all
    `!set`; it then makes exactly the bits of the range `set`, and when it returns false no bit
    changes. `bitmap_dealloc(b, bit, size)` returns true exactly when the range lies within
    `maxbits` and is all set; it then clears exactly those bits, and otherwise changes nothing. -/
theorem bitmapRange_spec (b : Bitmap) :
    (∀ (start nbits : ℕ) (validate set : Bool), start + nbits < 2 ^ 64 →
      ((bitmapRangeCheckAndSet b start nbits validate set).2 = true ↔
        start < b.maxbits ∧ start + nbits ≤ b.maxbits ∧
          (validate = true → ∀ k, start ≤ k → k < start + nbits → WordBits.get b.words k = !set)) ∧
      ((bitmapRangeCheckAndSet b start nbits validate set).2 = true →
        (bitmapRangeCheckAndSet b start nbits validate set).1.maxbits = b.maxbits ∧
        ∀ k, WordBits.get (bitmapRangeCheckAndSet b start nbits validate set).1.words k =
          if start ≤ k ∧ k < start + nbits then set else WordBits.get b.words k) ∧
      ((bitmapRangeCheckAndSet b start nbits validate set).2 = false →
        (bitmapRangeCheckAndSet b start nbits validate set).1 = b)) ∧
    (∀ bit size : ℕ, bit + size < 2 ^ 64 →
      ((bitmapDealloc b bit size).2 = true ↔
        bit + size ≤ b.maxbits ∧ ∀ k, bit ≤ k → k < bit + size → WordBits.get b.words k = true) ∧
      ((bitmapDealloc b bit size).2 = true →
        (bitmapDealloc b bit size).1.maxbits = b.maxbits ∧
        ∀ k, WordBits.get (bitmapDealloc b bit size).1.words k =
          if bit ≤ k ∧ k < bit + size then false else WordBits.get b.words k) ∧
      ((bitmapDealloc b bit size).2 = false → (bitmapDealloc b bit size).1 = b)) := by
  constructor
  · intro start nbits validate set hlt
    rw [bitmapRangeCheckAndSet_eq b validate set hlt]
    by_cases h : RangeSettable b start nbits validate set
    · simp only [if_pos h, true_iff, Bool.true_eq_false, false_implies, and_true, forall_const]
      exact ⟨h, trivial, get_forRangeInMap_set b.words set hlt⟩
    · simp only [if_neg h, Bool.false_eq_true, false_implies, and_true, forall_const]
      exact iff_of_false (by simp) h
  · intro bit size hlt
    rw [bitmapDealloc_eq b hlt]
    by_cases h : RangeAllocated b bit size
    · simp only [if_pos h, true_iff, Bool.true_eq_false, false_implies, and_true, forall_const]
      exact ⟨h, trivial, get_forRangeInMap_set b.words false hlt⟩
    · simp only [if_neg h, Bool.false_eq_true, false_implies, and_true, forall_const]
      exact iff_of_false (by simp) h

/-- The bound check of `bitmap_range_check_and_set` adds in `u64`. With `nbits = 2^64 - 1` the
    sum `start + nbits` wraps to `start - 1`, below `maxbits`, so the check passes; in
    `for_range_in_map` the sum `head + nbits` wraps as well, so the range is taken to end in its
    first word. On an empty bitmap of 128 bits, `bitmap_range_check_and_set(b, 1, 2^64 - 1, true,
    true)` returns true though `1 + (2^64 - 1) > 128`, and sets bits 1 to 63 alone. -/
theorem range_check_and_set_wraps :
    (bitmapRangeCheckAndSet (allocateBitmap 128) 1 (2 ^ 64 - 1) true true).2 = true ∧
      1 + (2 ^ 64 - 1) > (allocateBitmap 128).maxbits ∧
      (∀ k < 64, WordBits.get (bitmapRangeCheckAndSet (allocateBitmap 128) 1 (2 ^ 64 - 1) true
        true).1.words k = decide (1 ≤ k)) ∧
      WordBits.get (bitmapRangeCheckAndSet (allocateBitmap 128) 1 (2 ^ 64 - 1) true true).1.words
        64 = false := by
  decide

end Bitmap
end Nanos
