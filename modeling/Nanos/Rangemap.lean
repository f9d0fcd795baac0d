import Nanos.RbtreeNav

set_option autoImplicit false

/-!
# `runtime/range.c`: range maps

A `range` is a half-open interval `[start, end)` of `u64` values. The functions
below only compare and copy bounds, and take `range_span` only of what
`range_intersection` returns, which never has `end < start`; so the bounds are
natural numbers. A `rangemap` is an rbtree of `rmnode`s keyed by the start of their
range (`rmnode_compare`). A call reads and writes the `rbnode` record of each node,
the field `r` of each node, and `rm->t`; the `print_key` closure is not modelled.
The heap `rm->h` that `rangemap_insert_range` allocates from is not part of the
map: its one call of `allocate` is an argument, `none` for `INVALID_ADDRESS`. As in
`rbtree.c`, an outer `none` is a failed `assert`, a `halt` or a run out of fuel, an
inner `none` is `INVALID_ADDRESS`, and the loops get `rm->t.count + 1` as fuel.
-/

namespace Nanos.Rangemap
open ColorTree NodeHeap Rbtree RbtreeNav

structure Range where
  start : ℕ
  «end» : ℕ
deriving DecidableEq, Repr

def rangeIntersection (a b : Range) : Range :=
  let dest : Range := ⟨max a.start b.start, min a.end b.end⟩
  if dest.end ≤ dest.start then ⟨0, 0⟩ else dest

def rangeSpan (r : Range) : ℕ := r.end - r.start

theorem rangeSpan_intersection_eq_zero {a b : Range} (h : a.end ≤ b.start ∨ b.end ≤ a.start) :
    rangeSpan (rangeIntersection a b) = 0 := by
  have hle : min a.end b.end ≤ max a.start b.start := by omega
  simp [rangeIntersection, hle, rangeSpan]

variable {ν : Type} [DecidableEq ν]

/-- The memory of a range map: the `rbnode` records, the field `r` of each `rmnode`,
    and the tree `rm->t`. -/
structure RmState (ν : Type) where
  heap : Heap ν
  r : ν → Range
  t : Rbtree ν

namespace RmState

/-- The key of `rmnode_compare`: the start of the range of a node. -/
def start (s : RmState ν) (n : ν) : ℕ := (s.r n).start

def «end» (s : RmState ν) (n : ν) : ℕ := (s.r n).end

def setR (s : RmState ν) (n : ν) (v : Range) : RmState ν :=
  { s with r := Function.update s.r n v }

@[simp] theorem setR_heap (s : RmState ν) (n : ν) (v : Range) : (s.setR n v).heap = s.heap := rfl

@[simp] theorem setR_t (s : RmState ν) (n : ν) (v : Range) : (s.setR n v).t = s.t := rfl

@[simp] theorem setR_r_self (s : RmState ν) (n : ν) (v : Range) : (s.setR n v).r n = v := by
  simp [setR]

theorem setR_r_ne (s : RmState ν) {n x : ν} (v : Range) (h : x ≠ n) : (s.setR n v).r x = s.r x := by
  simp [setR, h]

@[simp] theorem setR_setR (s : RmState ν) (n : ν) (v w : Range) :
    (s.setR n v).setR n w = s.setR n w := by
  simp [setR]

@[simp] theorem setR_self (s : RmState ν) (n : ν) : s.setR n (s.r n) = s := by
  simp [setR]

@[simp] theorem start_setR_end (s : RmState ν) (n : ν) (e : ℕ) :
    (s.setR n { s.r n with «end» := e }).start = s.start := by
  funext x
  by_cases hx : x = n
  · subst hx; simp [start]
  · simp [start, setR_r_ne _ _ hx]

end RmState

section
variable (s : RmState ν)

def rangemapNextNode (n : ν) : Option (Option ν) :=
  rbnodeGetNext (s.t.count + 1) s.heap n

/-- `rangemap_remove_node(rm, n)`: `assert(rbtree_remove_by_key(&rm->t, &n->n))`. -/
def rangemapRemoveNode (n : ν) : Option (RmState ν) := do
  let (H, t, res) ← rbtreeRemoveByKey s.start s.heap s.t n
  if res then pure { s with heap := H, t := t } else none

/-- `rangemap_remove_range(rm, n)`: the node leaves the map and is given back to `rm->h`. -/
def rangemapRemoveRange (n : ν) : Option (RmState ν) :=
  rangemapRemoveNode s n

/-- The loop of `rangemap_lookup_at_or_next`: on while the node ends at or before
    `point`. -/
def atOrNextLoop (point : ℕ) : ℕ → Option ν → Option (Option ν)
  | 0, _ => none
  | _ + 1, none => some none
  | fuel + 1, some n =>
    if (s.r n).end ≤ point then do
      let next ← rangemapNextNode s n
      atOrNextLoop point fuel next
    else some (some n)

/-- `rangemap_lookup_at_or_next(rm, point)`. Its `assert(n)` after
    `rbtree_find_first` tests for null, which `INVALID_ADDRESS` is not, so it holds. -/
def rangemapLookupAtOrNext (point : ℕ) : Option (Option ν) :=
  match s.t.root with
  | none => some none
  | some _ => do
    let n ← rbtreeLookupMaxLte s.start s.heap s.t point
    let n ← match n with
      | none => rbtreeFindFirst s.heap s.t
      | some n => pure (some n)
    atOrNextLoop s point (s.t.count + 1) n

/-- The `rangemap_foreach_of_range(rm, curr, n)` loop of `rangemap_insert`: `false` when
    it finds a node that overlaps `n`. The successor is read before the loop test. -/
def insertScan (n : ν) : ℕ → Option ν → Option Bool
  | 0, _ => none
  | _ + 1, none => some true
  | fuel + 1, some curr => do
    let next ← rangemapNextNode s curr
    if rangeSpan (rangeIntersection (s.r n) (s.r curr)) > 0 then
      if (s.r curr).start ≥ (s.r n).end then some true
      else if rangeSpan (rangeIntersection (s.r curr) (s.r n)) > 0 then some false
      else insertScan n fuel next
    else some true

/-- `rangemap_insert(rm, n)`: `false` when `n` overlaps a node of the map; a failed
    `rbtree_insert_node` after the scan is a `halt`. -/
def rangemapInsert (n : ν) : Option (RmState ν × Bool) := do
  let s := { s with heap := initRbnode s.heap n }
  let curr ← rangemapLookupAtOrNext s (s.r n).start
  let ok ← insertScan s n (s.t.count + 1) curr
  if ok then do
    let (H, t, res) ← rbtreeInsertNode s.start s.heap s.t n
    if res then pure ({ s with heap := H, t := t }, true) else none
  else pure (s, false)

/-- `rangemap_reinsert(rm, n, k)`: `n` leaves the map and goes back with range `k`; when
    that overlaps, it goes back with its old range, which the second
    `assert(rangemap_insert(rm, n))` requires to succeed. -/
def rangemapReinsert (n : ν) (k : Range) : Option (RmState ν × Bool) := do
  let old := s.r n
  let s ← rangemapRemoveNode s n
  let (s, ok) ← rangemapInsert (s.setR n k) n
  if ok then pure (s, true)
  else do
    let (s, ok) ← rangemapInsert (s.setR n old) n
    if ok then pure (s, false) else none

end

/-- The `while` loop of `rangemap_insert_range(rm, r)`: `n` the current node, `merged`
    the first node it met, which takes the union of the ranges. -/
def mergeLoop (r : Range) : ℕ → RmState ν → Option ν → Option ν → Option (RmState ν × Option ν)
  | 0, _, _, _ => none
  | _ + 1, s, none, merged => some (s, merged)
  | fuel + 1, s, some n, merged =>
    if (s.r n).start ≤ r.end then do
      let next ← rangemapNextNode s n
      match merged with
      | none =>
        let s := if (s.r n).start > r.start then s.setR n { s.r n with start := r.start } else s
        let s := if (s.r n).end < r.end then s.setR n { s.r n with «end» := r.end } else s
        mergeLoop r fuel s next (some n)
      | some m =>
        let s := if (s.r m).end < (s.r n).end then s.setR m { s.r m with «end» := (s.r n).end }
          else s
        let s ← rangemapRemoveRange s n
        mergeLoop r fuel s next (some m)
    else some (s, merged)

/-- The node that the loop of `rangemap_insert_range(rm, r)` starts from: the last
    node whose start is at most `r.start`, else the first node, and the node after it
    when it ends before `r.start`. -/
def insertRangeStart (s : RmState ν) (r : Range) : Option (Option ν) := do
  let n ← rbtreeLookupMaxLte s.start s.heap s.t r.start
  let n ← match n with
    | none => rbtreeFindFirst s.heap s.t
    | some n => pure (some n)
  match n with
  | some n => if (s.r n).end < r.start then rangemapNextNode s n else pure (some n)
  | none => pure none

/-- `rangemap_insert_range(rm, r)`, with `fresh` the result of its `allocate`. -/
def rangemapInsertRange (s : RmState ν) (r : Range) (fresh : Option ν) :
    Option (RmState ν × Bool) := do
  let n ← insertRangeStart s r
  let (s, merged) ← mergeLoop r (s.t.count + 1) s n none
  match merged with
  | some _ => pure (s, true)
  | none =>
    match fresh with
    | none => pure (s, false)
    | some n =>
      -- `rmnode_init(n, r)`
      let s := { s.setR n r with heap := initRbnode s.heap n }
      let (s, _) ← rangemapInsert s n
      pure (s, true)

/-- `rangemap_insert_hole(rm, r)`, with `fresh` the result of its `allocate`. The
    `rangemap_foreach_of_range` loop runs its body at most once: on the first node that
    ends after `r.start`, when it meets `r`. The results of `rangemap_reinsert` and
    `rangemap_insert` are not read. -/
def rangemapInsertHole (s : RmState ν) (r : Range) (fresh : Option ν) :
    Option (RmState ν × Bool) := do
  let curr ← rangemapLookupAtOrNext s r.start
  match curr with
  | none => pure (s, false)
  | some curr =>
    -- the successor that the loop header reads before its test
    let _ ← rangemapNextNode s curr
    if rangeSpan (rangeIntersection r (s.r curr)) > 0 then
      if (s.r curr).start > r.start ∨ (s.r curr).end < r.end then pure (s, false)
      else if (s.r curr).start < r.start then
        if (s.r curr).end > r.end then
          match fresh with
          | none => pure (s, false)
          | some n =>
            -- `rmnode_init(n, irange(r.end, curr->r.end))`
            let s := { s.setR n ⟨r.end, (s.r curr).end⟩ with heap := initRbnode s.heap n }
            let (s, _) ← rangemapReinsert s curr ⟨(s.r curr).start, r.start⟩
            let (s, _) ← rangemapInsert s n
            pure (s, true)
        else do
          let (s, _) ← rangemapReinsert s curr ⟨(s.r curr).start, r.start⟩
          pure (s, true)
      else if (s.r curr).end > r.end then do
        let (s, _) ← rangemapReinsert s curr ⟨r.end, (s.r curr).end⟩
        pure (s, true)
      else do
        let s ← rangemapRemoveRange s curr
        pure (s, true)
    else pure (s, false)

end Nanos.Rangemap
