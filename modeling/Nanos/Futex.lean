import Mathlib.Data.Int.Notation
import Mathlib.Order.Basic
import Mathlib.Algebra.Group.Nat.Defs

set_option autoImplicit false

/-!
# `unix/futex.c`: `FUTEX_WAKE_OP`

`futex(uaddr, FUTEX_WAKE_OP, val, val2, uaddr2, val3)` decodes an operation and a comparison
from `val3`, stores the operation's result into `*uaddr2`, wakes up to `val` waiters of
`uaddr`, and, when the comparison of the old value of `*uaddr2` holds, up to `val2` waiters of
`uaddr2`. The model is the call with both addresses valid, the futex of `uaddr2` allocated,
and `uaddr2` another futex than `uaddr`: a world of the word `*uaddr2` and of the number of
waiters of each futex. `int` and `unsigned int` values are `BitVec 32`.

The code keeps the `FUTEX_OP_OPARG_SHIFT` bit in `op`, so a shifted operation matches no case;
it takes `oparg` and `cmparg` as unsigned 12-bit fields, compares the `int` old value with the
`unsigned int` `cmparg` unsigned, and goes on when `op` or `cmp` is unknown. `wakeOpSpec` is
the call as the Linux man page futex(2) defines it, and `wakeOp_diverges` shows the two apart
on each of these. Where none of them comes into play the code is the spec (`wakeOp_agrees`).
-/

namespace Nanos.Futex

def enosys : ℤ := 38

/-- `FUTEX_OP_SET`, `FUTEX_OP_ADD`, `FUTEX_OP_OR`, `FUTEX_OP_ANDN` and `FUTEX_OP_XOR`. -/
def futexOpSet : ℕ := 0
def futexOpAdd : ℕ := 1
def futexOpOr : ℕ := 2
def futexOpAndn : ℕ := 3
def futexOpXor : ℕ := 4

/-- `FUTEX_OP_OPARG_SHIFT`: the flag in the op nibble for `oparg = 1 << oparg`. -/
def futexOpOpargShift : ℕ := 8

/-- `FUTEX_OP_CMP_EQ` to `FUTEX_OP_CMP_GE`. -/
def futexOpCmpEq : ℕ := 0
def futexOpCmpNe : ℕ := 1
def futexOpCmpLt : ℕ := 2
def futexOpCmpLe : ℕ := 3
def futexOpCmpGt : ℕ := 4
def futexOpCmpGe : ℕ := 5

/-- `futex_wake_many(f, val)` on a futex with `waiters` waiters: while fewer than `val` are
    woken, `futex_wake_one` wakes the first waiter, and the loop breaks when there is none. -/
def futexWakeMany (waiters : ℕ) (val : ℤ) : ℕ :=
  if 0 < val then
    match waiters with
    | 0 => 0
    | w + 1 => futexWakeMany w (val - 1) + 1
  else 0

/-- What `FUTEX_WAKE_OP` reads and writes: the word `*uaddr2` and the number of waiters of the
    futex of `uaddr` and of that of `uaddr2`. -/
structure World where
  mem : BitVec 32
  waiters1 : ℕ
  waiters2 : ℕ
deriving DecidableEq, Repr

/-- The `switch (op)` of the code: the new `*uaddr2`; an unknown `op` leaves it. -/
def applyOp (op : ℕ) (oldval oparg : BitVec 32) : BitVec 32 :=
  match op with
  | 0 => oparg
  | 1 => oldval + oparg
  | 2 => oldval ||| oparg
  | 3 => oldval &&& ~~~oparg
  | 4 => oldval ^^^ oparg
  | _ => oldval

/-- The `switch (cmp)` of the code: `oldval` is an `int` and `cmparg` an `unsigned int`, so
    the comparison is unsigned; an unknown `cmp` leaves `c = 0`. -/
def codeCmp (cmp : ℕ) (oldval cmparg : BitVec 32) : Bool :=
  match cmp with
  | 0 => oldval == cmparg
  | 1 => oldval != cmparg
  | 2 => oldval.ult cmparg
  | 3 => oldval.ule cmparg
  | 4 => cmparg.ult oldval
  | 5 => cmparg.ule oldval
  | _ => false

/-- The `FUTEX_WAKE_OP` case of `futex`: the return value and the new world. `val2` is a `u64`
    passed to the `int` parameter of `futex_wake_many`. -/
def futexWakeOp (w : World) (val : ℤ) (val2 : ℕ) (val3 : BitVec 32) : ℤ × World :=
  let cmparg := val3 &&& 0xfff
  let oparg := val3.sshiftRight 12 &&& 0xfff
  let cmp := (val3.sshiftRight 24 &&& 0xf).toNat
  let op := (val3.sshiftRight 28 &&& 0xf).toNat
  let oldval := w.mem
  let wake1 := futexWakeMany w.waiters1 val
  let wake2 := if codeCmp cmp oldval cmparg then futexWakeMany w.waiters2 (BitVec.ofNat 32 val2).toInt
    else 0
  ((wake1 + wake2 : ℕ), ⟨applyOp op oldval oparg, w.waiters1 - wake1, w.waiters2 - wake2⟩)

/-! ## `FUTEX_WAKE_OP` in Linux -/

/-- The comparison of Linux: `oldval` and `cmparg` are signed `int`s. -/
def specCmp (cmp : ℕ) (oldval cmparg : BitVec 32) : Bool :=
  match cmp with
  | 0 => oldval == cmparg
  | 1 => oldval != cmparg
  | 2 => oldval.slt cmparg
  | 3 => oldval.sle cmparg
  | 4 => cmparg.slt oldval
  | 5 => cmparg.sle oldval
  | _ => false

/-- `FUTEX_WAKE_OP` as futex(2) defines it: `op` is bits 28 to 30 and bit 31 is
    `FUTEX_OP_OPARG_SHIFT`; `oparg` and `cmparg` are 12-bit fields, sign-extended, and with the
    shift flag `oparg` becomes `1 << (oparg & 31)`; an unknown `op` or `cmp` leaves the world as
    it was and fails with `-ENOSYS`. -/
def wakeOpSpec (w : World) (val : ℤ) (val2 : ℕ) (val3 : BitVec 32) : ℤ × World :=
  let op := (val3 >>> 28 &&& 0x7).toNat
  let cmp := (val3 >>> 24 &&& 0xf).toNat
  let oparg := ((val3 >>> 12).setWidth 12).signExtend 32
  let oparg := if val3.getLsbD 31 then (1 : BitVec 32) <<< (oparg &&& 31).toNat else oparg
  let cmparg := (val3.setWidth 12).signExtend 32
  if 4 < op ∨ 5 < cmp then (-enosys, w)
  else
    let oldval := w.mem
    let wake1 := min w.waiters1 val.toNat
    let wake2 := if specCmp cmp oldval cmparg then min w.waiters2 (BitVec.ofNat 32 val2).toInt.toNat
      else 0
    ((wake1 + wake2 : ℕ), ⟨applyOp op oldval oparg, w.waiters1 - wake1, w.waiters2 - wake2⟩)

/-! ## The wakes -/

theorem futexWakeMany_eq (waiters : ℕ) (val : ℤ) :
    futexWakeMany waiters val = min waiters val.toNat := by
  induction waiters generalizing val with
  | zero =>
    unfold futexWakeMany
    split <;> simp
  | succ w ih =>
    unfold futexWakeMany
    split
    · show futexWakeMany w (val - 1) + 1 = _
      rw [ih]
      omega
    · omega

/-! ## Where the code departs from futex(2) -/

/-- With one waiter on each futex and `*uaddr2 = 0` (or `-1`):
    * `FUTEX_OP_SET` with the shift flag and `oparg = 3` stores 8 in Linux and nothing in the
      code, since `op` is 8 there;
    * `FUTEX_OP_CMP_LT` with `cmparg = 0` and `*uaddr2 = -1` wakes the waiter of `uaddr2` in
      Linux, and not in the code, which compares unsigned;
    * the unknown `op` 5 fails with `-ENOSYS` in Linux, and in the code wakes the waiter of
      `uaddr` and returns 2. -/
theorem wakeOp_diverges :
    futexWakeOp ⟨0, 1, 1⟩ 1 1 0x80003000 = (2, ⟨0, 0, 0⟩) ∧
      wakeOpSpec ⟨0, 1, 1⟩ 1 1 0x80003000 = (2, ⟨8, 0, 0⟩) ∧
    futexWakeOp ⟨0xffffffff, 1, 1⟩ 1 1 0x02000000 = (1, ⟨0, 0, 1⟩) ∧
      wakeOpSpec ⟨0xffffffff, 1, 1⟩ 1 1 0x02000000 = (2, ⟨0, 0, 0⟩) ∧
    futexWakeOp ⟨0, 1, 1⟩ 1 1 0x50000000 = (2, ⟨0, 0, 0⟩) ∧
      wakeOpSpec ⟨0, 1, 1⟩ 1 1 0x50000000 = (-enosys, ⟨0, 1, 1⟩) := by
  decide +kernel

/-! ## Where the code is futex(2) -/

theorem toNat_field (x m : BitVec 32) (n k : ℕ) (hm : m.toNat = 2 ^ k - 1) :
    (x >>> n &&& m).toNat = x.toNat / 2 ^ n % 2 ^ k := by
  rw [BitVec.toNat_and, BitVec.toNat_ushiftRight, hm, Nat.and_two_pow_sub_one_eq_mod,
    Nat.shiftRight_eq_div_pow]

theorem msb_eq_false {x : BitVec 32} (h : x.toNat < 2 ^ 31) : x.msb = false := by
  rw [BitVec.msb_eq_decide]
  simpa using h

/-- With the sign bits of both operands clear, the unsigned comparisons of the code are the
    signed ones of Linux. -/
theorem codeCmp_eq_specCmp (cmp : ℕ) {x y : BitVec 32} (hx : x.msb = false) (hy : y.msb = false) :
    codeCmp cmp x y = specCmp cmp x y := by
  have hxy : x.msb = y.msb := hx.trans hy.symm
  unfold codeCmp specCmp
  rcases cmp with _ | _ | _ | _ | _ | _ | cmp <;>
    simp only [BitVec.slt_eq_ult_of_msb_eq hxy, BitVec.sle_eq_ule_of_msb_eq hxy,
      BitVec.slt_eq_ult_of_msb_eq hxy.symm, BitVec.sle_eq_ule_of_msb_eq hxy.symm]

theorem signExtend_field {x : BitVec 32} (h : x.toNat % 2 ^ 12 < 2 ^ 11) :
    (x.setWidth 12).signExtend 32 = x &&& 0xfff := by
  have hmsb : (x.setWidth 12).msb = false := by
    rw [BitVec.msb_eq_decide, BitVec.toNat_setWidth]
    simpa using h
  rw [BitVec.signExtend_eq_setWidth_of_msb_false hmsb]
  apply BitVec.eq_of_toNat_eq
  rw [BitVec.toNat_setWidth, BitVec.toNat_setWidth, BitVec.toNat_and]
  rw [show (0xfff : BitVec 32).toNat = 2 ^ 12 - 1 from rfl, Nat.and_two_pow_sub_one_eq_mod]
  omega

/-- When `op` is one of the five operations without the shift flag, `cmp` one of the six
    comparisons, both 12-bit arguments are not negative and neither is `*uaddr2`, the code does
    what futex(2) says. -/
theorem wakeOp_agrees (w : World) (val : ℤ) (val2 : ℕ) (val3 : BitVec 32)
    (hop : val3.toNat / 2 ^ 28 ≤ 4) (hcmp : val3.toNat / 2 ^ 24 % 2 ^ 4 ≤ 5)
    (hoparg : val3.toNat / 2 ^ 12 % 2 ^ 12 < 2 ^ 11) (hcmparg : val3.toNat % 2 ^ 12 < 2 ^ 11)
    (hold : w.mem.toNat < 2 ^ 31) :
    futexWakeOp w val val2 val3 = wakeOpSpec w val val2 val3 := by
  have hsign : val3.msb = false := msb_eq_false (by omega)
  -- the fields as the code and as Linux decode them
  have hopC : (val3.sshiftRight 28 &&& 0xf).toNat = val3.toNat / 2 ^ 28 := by
    rw [BitVec.sshiftRight_eq_of_msb_false hsign, toNat_field _ _ 28 4 rfl]
    omega
  have hopS : (val3 >>> 28 &&& 0x7).toNat = val3.toNat / 2 ^ 28 := by
    rw [toNat_field _ _ 28 3 rfl]
    omega
  have hcmpC : (val3.sshiftRight 24 &&& 0xf).toNat = val3.toNat / 2 ^ 24 % 2 ^ 4 := by
    rw [BitVec.sshiftRight_eq_of_msb_false hsign, toNat_field _ _ 24 4 rfl]
  have hcmpS : (val3 >>> 24 &&& 0xf).toNat = val3.toNat / 2 ^ 24 % 2 ^ 4 :=
    toNat_field _ _ 24 4 rfl
  have hoparg' : ((val3 >>> 12).setWidth 12).signExtend 32 = val3.sshiftRight 12 &&& 0xfff := by
    rw [BitVec.sshiftRight_eq_of_msb_false hsign, signExtend_field]
    rw [BitVec.toNat_ushiftRight, Nat.shiftRight_eq_div_pow]
    exact hoparg
  have hcmparg' : (val3.setWidth 12).signExtend 32 = val3 &&& 0xfff := signExtend_field hcmparg
  have hcmpargMsb : (val3 &&& 0xfff).msb = false := by
    apply msb_eq_false
    rw [BitVec.toNat_and, show (0xfff : BitVec 32).toNat = 2 ^ 12 - 1 from rfl,
      Nat.and_two_pow_sub_one_eq_mod]
    omega
  have hshift : val3.getLsbD 31 = false := by
    rw [← hsign, BitVec.msb_eq_getLsbD_last]
  unfold futexWakeOp wakeOpSpec
  simp only [hopC, hopS, hcmpC, hcmpS, hoparg', hcmparg', hshift, Bool.false_eq_true, if_false,
    codeCmp_eq_specCmp _ (msb_eq_false hold) hcmpargMsb, futexWakeMany_eq]
  rw [if_neg (show ¬(4 < val3.toNat / 2 ^ 28 ∨ 5 < val3.toNat / 2 ^ 24 % 2 ^ 4) by omega)]

end Nanos.Futex
