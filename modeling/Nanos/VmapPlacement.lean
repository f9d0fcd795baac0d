import Nanos.RangemapLookup
import Mathlib.Algebra.Group.Nat.Defs

set_option autoImplicit false

/-!
# `unix/mmap.c`: where a new mapping goes

`process_get_virt_range_locked(p, size, region)` walks the vmaps over `region` with
`rangemap_range_lookup_with_gaps`: the gap handler takes each gap's start as the candidate, the
node handler tries to fit the mapping below its node, less `PROCESS_STACK_GUARD_GAP` before a
stack, and `vmap_select_addr` tries the rest of the region. `vmh->randomize` and the values of
`random_u64()` are arguments. `vmap_select_addr` takes the span in `u64`: before a stack whose gap
is shorter than the guard gap the span wraps, and the mapping runs into the stack
(`virtRange_overlaps_stack`).
-/

namespace Nanos.Vmap
open ColorTree NodeHeap CTree Rbtree Rangemap Intervals RangemapMerge RangemapLookup

def pagelog : ℕ := 12

def pagesize : ℕ := 2 ^ pagelog

def pagemask : ℕ := pagesize - 1

def processStackGuardGap : ℕ := 256 * pagesize

def vmapFlagStack : ℕ := 0x0040

def invalidPhysical : ℕ := 2 ^ 64 - 1

def u64Sub (a b : ℕ) : ℕ := (a + 2 ^ 64 - b) % 2 ^ 64

/-- `vmap_select_addr(size, r, randomize)`, with `rv` the value of its `random_u64()`; `none`
    when the modulus of the random offset is 0, a division fault. -/
def vmapSelectAddr (size : ℕ) (r : Range) (randomize : Bool) (rv : ℕ) : Option ℕ :=
  -- `r.end -= PAGESIZE`: room for the random offset
  let r : Range := if randomize then ⟨r.start, u64Sub r.end pagesize⟩ else r
  if size > u64Sub r.end r.start then some invalidPhysical
  else if randomize then
    let m := u64Sub ((u64Sub r.end r.start + 2 * pagesize) % 2 ^ 64) size >>> pagelog
    if m = 0 then none
    else some ((r.start + ((rv % m) <<< pagelog)) % 2 ^ 64)
  else some r.start

/-- The closure `proc_virt_gap_handler(&addr)`: the start of the gap is the candidate. The
    state `none` is a division fault, after which no handler runs. -/
def procVirtGapHandler (addr : Option ℕ) (r : Range) : Option ℕ × Bool :=
  match addr with
  | none => (none, false)
  | some _ => (some r.start, true)

section
variable {ν : Type}

/-- The closure `proc_virt_node_handler(size, randomize, &addr)` on the node `n` of a map with
    ranges `R` and vmap flags `flags`: with a candidate, it tries to place the mapping between
    the candidate and the start of `n`, less the guard gap when `n` is a stack, and aborts the
    walk when that succeeds. -/
def procVirtNodeHandler (R : ν → Range) (flags : ν → ℕ) (size : ℕ) (randomize : Bool)
    (rnd : Option ν → ℕ) (addr : Option ℕ) (n : ν) : Option ℕ × Bool :=
  match addr with
  | none => (none, false)
  | some candidate =>
    if candidate = invalidPhysical then (some candidate, true)
    else
      let limit := if flags n &&& vmapFlagStack ≠ 0 then u64Sub (R n).start processStackGuardGap
        else (R n).start
      match vmapSelectAddr size ⟨candidate, limit⟩ randomize (rnd (some n)) with
      | none => (none, false)
      | some a => (some a, decide (a = invalidPhysical))

variable [DecidableEq ν]

/-- `process_get_virt_range_locked(p, size, region)` on the vmaps `vmaps` with flags `flags`;
    `randomize` is `vmh->randomize`, and `rnd` gives the value of `random_u64()` in the node
    handler's call on a node and, for `none`, in the call after the walk. The walk calls the
    node handler at most once on a node, so every sequence of random values is such a
    function. The outer `none` is the failed `assert`, a division fault, or a walk out of
    fuel. -/
def processGetVirtRangeLocked (vmaps : RmState ν) (flags : ν → ℕ) (randomize : Bool)
    (rnd : Option ν → ℕ) (size : ℕ) (region : Range) : Option ℕ :=
  if size &&& pagemask ≠ 0 then none
  else do
    let (addr, res) ← rangemapRangeLookupWithGaps vmaps region
      (procVirtNodeHandler vmaps.r flags size randomize rnd) procVirtGapHandler
      (some invalidPhysical)
    let addr ← addr
    -- a candidate from the last gap, with no node after it to place the mapping
    if res = .matched ∧ addr ≠ invalidPhysical then
      vmapSelectAddr size ⟨addr, region.end⟩ randomize (rnd none)
    else pure addr

end

/-! ## A gap below a stack shorter than the guard gap -/

/-- Two vmaps: node 0 at `[0x100000, 0x1f0000)` and node 1 at `[0x200000, 0x300000)`, which
    the flags below make a stack. Node 1 is the black root, node 0 its red left child. -/
def stackVmaps : RmState ℕ where
  heap := fun n => if n = 1 then ⟨none, .black, some 0, none⟩ else ⟨some 1, .red, none, none⟩
  r := fun n => if n = 1 then ⟨0x200000, 0x300000⟩ else ⟨0x100000, 0x1f0000⟩
  t := { root := some 1, count := 2 }

def stackFlags : ℕ → ℕ := fun n => if n = 1 then vmapFlagStack else 0

theorem stackVmaps_wellFormed :
    WellFormed stackVmaps (.node .black (.node .red .nil 0 .nil) 1 .nil) :=
  ⟨⟨⟨rfl, rfl, ⟨rfl, rfl, rfl, rfl⟩, rfl⟩, ⟨rfl, ⟨rfl, trivial, trivial⟩, trivial⟩⟩,
    ⟨1, by simp [LL]⟩, rfl, rfl, by simp [stackVmaps, RmState.start, RmState.end],
    by simp [Chain, stackVmaps, RmState.start, RmState.end]⟩

/-- In `[0x100000, 0x400000)` a mapping of `0x20000` bytes, without randomization, goes at
    `0x1f0000`, at the start of the gap of `0x10000` bytes below the stack, and runs into the
    stack. The guard gap is `0x100000`, so the limit `0x200000 - 0x100000` lies below the
    candidate, and `range_span` wraps. A new vmap with that range overlaps the stack, so
    `rangemap_insert` in `allocate_vmap_locked` refuses it. -/
theorem virtRange_overlaps_stack :
    WellFormed stackVmaps (.node .black (.node .red .nil 0 .nil) 1 .nil) ∧
      processGetVirtRangeLocked stackVmaps stackFlags false (fun _ => 0) 0x20000
        ⟨0x100000, 0x400000⟩ = some 0x1f0000 ∧
      rangeSpan (rangeIntersection ⟨0x1f0000, 0x1f0000 + 0x20000⟩ (stackVmaps.r 1)) ≠ 0 ∧
      (rangemapInsert (stackVmaps.setR 2 ⟨0x1f0000, 0x1f0000 + 0x20000⟩) 2).map Prod.snd =
        some false :=
  ⟨stackVmaps_wellFormed, by decide, by decide, by decide⟩

end Nanos.Vmap
