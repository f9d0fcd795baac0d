import Nanos.RangemapLookup
import Nanos.Bitmap

set_option autoImplicit false

/-!
# The id heap: `heap/id.c`

An id heap hands out page-aligned ids from ranges of pages: each `id_range` is a node of the range
map with a bitmap of its pages and next-fit hints `next_bit[k]` for allocations of `2^k` pages.
Only orders up to `NEXT_BIT_COUNT - 1 = 9` have a hint of their own, so a larger order reads the
order-9 hint, which is not aligned to it (`idAlloc_misaligned`). Freeing and `set_area` walk the
ranges with `rangemap_range_lookup_with_gaps` and roll nothing back when a gap aborts the walk
(`setArea_partial`).

The `id_range` that `allocate` gives, whether `allocate_bitmap` succeeds, the parent heap's answer
and the values of `random_u64()` are arguments of the operations.
-/

namespace Nanos.Id
open ColorTree NodeHeap Rbtree RbtreeNav Rangemap Bitmap RangemapLookup

def infinity : ℕ := 2 ^ 64 - 1

def nextBitCount : ℕ := 10

/-- `msb(x)`: the index of the highest set bit, `-1ull` for zero. -/
def msb (x : ℕ) : ℕ := if x = 0 then infinity else Nat.log2 x

/-- `(u64)(int)x`: the low 32 bits of `x` as an `int`, widened back with its sign. -/
def intToU64 (x : ℕ) : ℕ :=
  if x % 2 ^ 32 < 2 ^ 31 then x % 2 ^ 32 else x % 2 ^ 32 + (2 ^ 64 - 2 ^ 32)

/-- `struct id_range` without its `rmnode`, whose range (in pages) is in the range map. -/
structure IdRange where
  b : Bitmap
  bitmapStart : ℕ
  nextBit : ℕ → ℕ

/-- `struct id_heap`, with its one flag `ID_HEAP_FLAG_RANDOMIZE` as `randomize` and, for its
    parent heap, the parent's page size (`none` for a heap without parent). -/
structure IdHeap (ν : Type) where
  pagesize : ℕ
  pageOrder : ℕ
  allocated : ℕ
  total : ℕ
  randomize : Bool
  parentPagesize : Option ℕ
  ranges : RmState ν
  idr : ν → IdRange

variable {ν : Type} [DecidableEq ν]

/-- `get_next_bit(ir, page_order)`: the orders from `NEXT_BIT_COUNT - 1` on share one hint. -/
def getNextBit (ir : IdRange) (pageOrder : ℕ) : ℕ :=
  ir.nextBit (min pageOrder (nextBitCount - 1))

/-- `set_next_bit(ir, page_order, bit)`: no hint is kept for an order from `NEXT_BIT_COUNT` on. -/
def setNextBit (ir : IdRange) (pageOrder bit : ℕ) : IdRange :=
  if pageOrder < nextBitCount then { ir with nextBit := Function.update ir.nextBit pageOrder bit }
  else ir

/-- `pages_from_bytes(i, alloc_size)`, an `int`. -/
def pagesFromBytes (i : IdHeap ν) (allocSize : ℕ) : ℕ :=
  intToU64 (pad allocSize i.pagesize / 2 ^ i.pageOrder)

def wholeRange : Range := ⟨0, infinity⟩

/-- `allocate_id_heap(meta, map, pagesize, locking)`, with `ranges` and `idr` the memory of the
    range map and of the `id_range`s before they are set up; the range map is empty. -/
def allocateIdHeap (pagesize : ℕ) (ranges : RmState ν) (idr : ν → IdRange) :
    Option (IdHeap ν) :=
  if pagesize &&& (pagesize - 1) ≠ 0 then none
  else some ⟨pagesize, msb pagesize, 0, 0, false, none, { ranges with t := initRbtree }, idr⟩

def setIdr (i : IdHeap ν) (n : ν) (ir : IdRange) : IdHeap ν :=
  { i with idr := Function.update i.idr n ir }

/-! ## Ranges -/

/-- `id_add_range(i, base, length)` with `ir` the `id_range` that `allocate` gives (`none` for
    `INVALID_ADDRESS`) and `bitmapOk` whether `allocate_bitmap` succeeds: the heap and the new
    range, `none` for `INVALID_ADDRESS`. A failed assertion is `none` for the whole call. -/
def idAddRangeWith (i : IdHeap ν) (base length : ℕ) (ir : Option ν) (bitmapOk : Bool) :
    Option (IdHeap ν × Option ν) := do
  -- unlimited: the largest range of whole bitmap words that does not wrap
  let length := if length = infinity then
      (infinity - base) / 2 ^ (i.pageOrder + 6) * 2 ^ (i.pageOrder + 6) else length
  if ¬(length ≥ i.pagesize ∧ base % i.pagesize = 0 ∧ length % i.pagesize = 0) then none
  let pageStart := base / 2 ^ i.pageOrder
  let pages := length / 2 ^ i.pageOrder
  match ir with
  | none => pure (i, none)
  | some n =>
    let (ranges, ok) ← rangemapInsert (i.ranges.setR n ⟨pageStart, pageStart + pages⟩) n
    if !ok then pure ({ i with ranges := ranges }, none) else
    -- `goto fail` after `allocate_bitmap`: the `id_range` is freed but stays in the map
    if !bitmapOk then pure ({ i with ranges := ranges }, none) else
    -- the bitmap starts at a whole word; the pages before the range are marked allocated
    let pageStartMask := pageStart % 64
    let b := allocateBitmap (pages + pageStartMask)
    let b := if pageStartMask ≠ 0 then (bitmapRangeCheckAndSet b 0 pageStartMask false true).1
      else b
    pure ({ i with
      ranges := ranges
      total := i.total + length
      idr := Function.update i.idr n ⟨b, pageStart - pageStartMask, fun _ => 0⟩ }, some n)

/-- `id_add_range(i, base, length)` where `allocate_bitmap` succeeds, as the operations of the
    heap take it: after a failure the range map holds a freed node
    (`idAddRangeWith_bitmap_fail`), from which no run goes on. -/
def idAddRange (i : IdHeap ν) (base length : ℕ) (ir : Option ν) :
    Option (IdHeap ν × Option ν) :=
  idAddRangeWith i base length ir true

/-- `id_get_backed_page(i, count)` with `base` what `allocate_u64(i->parent, length)` gives
    (`none` for `INVALID_PHYSICAL`). -/
def idGetBackedPage (i : IdHeap ν) (parentPagesize count : ℕ) (base : Option ℕ)
    (ir : Option ν) : Option (IdHeap ν × Option ν) :=
  let parentPages := (count - 1) / parentPagesize + 1
  let length := parentPages * parentPagesize
  match base with
  | none => pure (i, none)
  | some base => idAddRange i base length ir

/-! ## Allocation -/

/-- The bit at which `id_alloc_from_range` starts its search in `ri`, the range's part in
    bits, for a request of order `pageOrder`: a random one in a randomized heap, else the hint
    of the order when it lies in `ri`, kept far enough from the end for a whole power of two. -/
def startBit (i : IdHeap ν) (ir : IdRange) (pageOrder : ℕ) (ri : Range) (rnd : ℕ) : ℕ :=
  let pagesRounded := 2 ^ pageOrder
  let span := rangeSpan ri / pagesRounded * pagesRounded
  let margin := if span > pagesRounded then span - pagesRounded else 0
  let nextBit := getNextBit ir pageOrder
  if i.randomize ∧ margin > 0 then ri.start + rnd % margin
  else if ri.start ≤ nextBit ∧ nextBit < ri.end then min nextBit (ri.start + margin)
  else ri.start

/-- The search of `id_alloc_from_range` in the bitmap: from `startBit` to `end_`, then, when
    that fails, from `start` up to `startBit`. -/
def wrapSearch (b : Bitmap) (pages start startBit end_ : ℕ) : Option ℕ × Bitmap :=
  match bitmapAllocWithinRange b pages startBit end_ with
  | (none, b) => if startBit > start then bitmapAllocWithinRange b pages start startBit else (none, b)
  | (some bit, b) => (some bit, b)

/-- `id_alloc_from_range(i, r, pages, subrange)` with `rnd` the value of `random_u64()`:
    the id, `none` for `INVALID_PHYSICAL`. -/
def idAllocFromRange (i : IdHeap ν) (r : ν) (pages : ℕ) (subrange : Range) (rnd : ℕ) :
    Option ℕ × IdHeap ν :=
  let ir := i.idr r
  let pageOrder := findOrder pages
  let ri := rangeIntersection (i.ranges.r r) subrange
  if rangeSpan ri = 0 then (none, i) else
  -- the start is padded to the power of two, the end is not
  let ri : Range := ⟨pad ri.start (2 ^ pageOrder) - ir.bitmapStart, ri.end - ir.bitmapStart⟩
  if ¬ri.start ≤ ri.end ∨ rangeSpan ri < pages then (none, i) else
  match wrapSearch ir.b pages ri.start (startBit i ir pageOrder ri rnd) ri.end with
  | (none, b) => (none, setIdr i r { ir with b := b })
  | (some bit, b) =>
    (some ((ir.bitmapStart + bit) * 2 ^ i.pageOrder),
      { setIdr i r (setNextBit { ir with b := b } pageOrder (bit + 2 ^ pageOrder)) with
          allocated := i.allocated + pages * 2 ^ i.pageOrder })

/-- The loop over the ranges of `id_alloc` and `alloc_subrange`: the first range, from `r`
    on, that gives an id for `pages` pages in `subrange`. The value of `random_u64()` in the
    call on a range `n` is `rnd n`. -/
def rangesLoop (pages : ℕ) (subrange : Range) (rnd : ν → ℕ) :
    ℕ → IdHeap ν → Option ν → Option (Option ℕ × IdHeap ν)
  | 0, _, _ => none
  | _ + 1, i, none => some (none, i)
  | fuel + 1, i, some r =>
    match idAllocFromRange i r pages subrange (rnd r) with
    | (some a, i) => some (some a, i)
    | (none, i) => do
      let next ← rangemapNextNode i.ranges r
      rangesLoop pages subrange rnd fuel i next

/-- `id_alloc(h, count)`, with `base` and `ir` what the parent heap and `allocate` give when a
    heap with a parent takes a new range from it. -/
def idAlloc (i : IdHeap ν) (count : ℕ) (rnd : ν → ℕ) (base : Option ℕ) (ir : Option ν) :
    Option (Option ℕ × IdHeap ν) := do
  if count = 0 then pure (none, i) else
  let pages := pagesFromBytes i count
  let first ← rbtreeFindFirst i.ranges.heap i.ranges.t
  let (a, i) ← rangesLoop pages wholeRange rnd (i.ranges.t.count + 1) i first
  match a, i.parentPagesize with
  | some a, _ => pure (some a, i)
  | none, none => pure (none, i)
  | none, some pp => do
    -- every range of the parent has the same size: a request that fits none takes a new one
    let (i, r) ← idGetBackedPage i pp count base ir
    match r with
    | none => pure (none, i)
    | some r => pure (idAllocFromRange i r pages wholeRange (rnd r))

/-- `create_id_heap(meta, map, base, length, pagesize, locking)`, with `ranges`, `idr` and `ir`
    as in `allocateIdHeap` and `idAddRange`: `some none` for `INVALID_ADDRESS`, when the first
    range cannot be added. -/
def createIdHeap (pagesize base length : ℕ) (ranges : RmState ν) (idr : ν → IdRange)
    (ir : Option ν) : Option (Option (IdHeap ν)) := do
  let i ← allocateIdHeap pagesize ranges idr
  let (i, r) ← idAddRange i base length ir
  pure (r.map fun _ => i)

/-- `create_id_heap_backed(meta, map, parent, pagesize, locking)` over a parent heap of page
    size `parentPagesize`, which gives `base` for the first range (`none` for
    `INVALID_PHYSICAL`): `some none` for `INVALID_ADDRESS`. -/
def createIdHeapBacked (pagesize parentPagesize : ℕ) (ranges : RmState ν) (idr : ν → IdRange)
    (base : Option ℕ) (ir : Option ν) : Option (Option (IdHeap ν)) := do
  let i ← allocateIdHeap pagesize ranges idr
  -- `i->parent = parent`, then the first range from it
  let (i, r) ← idGetBackedPage { i with parentPagesize := some parentPagesize } parentPagesize 1
    base ir
  pure (r.map fun _ => i)

/-- The memory of a range map and of its `id_range`s before they are set up, for runs on fixed
    inputs. -/
def blankRanges : RmState ℕ := ⟨fun _ => ⟨none, .black, none, none⟩, fun _ => ⟨0, 0⟩, initRbtree⟩

def blankIdr : ℕ → IdRange := fun _ => ⟨allocateBitmap 0, 0, fun _ => 0⟩

/-- In a heap of page size 1 with the range of pages `[0, 2048)`, an allocation of 512 pages
    at 0 leaves the order-9 hint at 512. An allocation of 1024 pages, of order 10, reads that
    hint and returns 512, which is not a multiple of 1024. -/
theorem idAlloc_misaligned :
    (do
      let i ← allocateIdHeap 1 blankRanges blankIdr
      let (i, _) ← idAddRange i 0 2048 (some 0)
      let (a, i) ← idAlloc i 512 (fun _ => 0) none none
      let (b, _) ← idAlloc i 1024 (fun _ => 0) none none
      pure (a, b)) = some (some 0, some 512) ∧
    512 % 2 ^ findOrder 1024 ≠ 0 := by
  decide

def allocSubrange (i : IdHeap ν) (count start end_ : ℕ) (rnd : ν → ℕ) :
    Option (Option ℕ × IdHeap ν) := do
  let subrange : Range := ⟨pad start i.pagesize / 2 ^ i.pageOrder,
    if end_ = infinity then infinity else end_ / 2 ^ i.pageOrder⟩
  if count = 0 ∨ ¬subrange.start ≤ subrange.end ∨ rangeSpan subrange = 0 ∨
      subrange.start = infinity then pure (none, i) else
  let pages := pagesFromBytes i count
  if rangeSpan subrange < pages then pure (none, i) else
  let first ← rbtreeFindFirst i.ranges.heap i.ranges.t
  rangesLoop pages subrange rnd (i.ranges.t.count + 1) i first

/-- `set_next(i, count, next)` on the range `r`, the body of its `rangemap_foreach`: the hint of
    the order of `count` moves to `next` in the range that holds it, and to the start of each
    range after it. -/
def setNextRange (order next : ℕ) (i : IdHeap ν) (r : ν) : IdHeap ν :=
  if (i.ranges.r r).start ≤ next ∧ next < (i.ranges.r r).end then
    setIdr i r (setNextBit (i.idr r) order (next - (i.idr r).bitmapStart))
  else if (i.ranges.r r).start > next then setIdr i r (setNextBit (i.idr r) order 0)
  else i

/-- `rangemap_foreach(rm, n)` with a body that changes the state `st` and not the map; the
    successor is read before the body. -/
def rangemapForeach {σ : Type} (s : RmState ν) (body : σ → ν → σ) :
    ℕ → σ → Option ν → Option σ
  | 0, _, _ => none
  | _ + 1, st, none => some st
  | fuel + 1, st, some n => do
    let next ← rangemapNextNode s n
    rangemapForeach s body fuel (body st n) next

def setNext (i : IdHeap ν) (count next : ℕ) : Option (IdHeap ν) := do
  let order := findOrder (pagesFromBytes i count)
  let first ← rbtreeFindFirst i.ranges.heap i.ranges.t
  rangemapForeach i.ranges (setNextRange order next) (i.ranges.t.count + 1) i first

def setRandomize (i : IdHeap ν) (randomize : Bool) : IdHeap ν :=
  { i with randomize := randomize }

def idHeapAllocGte (i : IdHeap ν) (count min : ℕ) (rnd : ν → ℕ) :
    Option (Option ℕ × IdHeap ν) := do
  let i ← setNext i count min
  allocSubrange i count min infinity rnd

/-- In a heap of page size 1 with the range `[0, 64)`, all free, a randomized heap starts the
    search of `id_heap_alloc_gte(i, 1, 0)` at a random bit: with `random_u64()` giving 5 it
    returns 5, though 0 is free. -/
theorem idHeapAllocGte_randomized :
    (do
      let i ← allocateIdHeap 1 blankRanges blankIdr
      let (i, _) ← idAddRange i 0 64 (some 0)
      let (a, _) ← idHeapAllocGte (setRandomize i true) 1 0 (fun _ => 5)
      pure (a, (i.ranges.r 0).start, WordBits.get (i.idr 0).b.words 0)) =
      some (some 5, 0, false) := by
  decide

/-! ## Freeing and setting areas -/

/-- `dealloc_from_range(i, q)` on the range `n`; the state is `none` once an assertion has
    failed. -/
def deallocFromRange (q : Range) : Option (IdHeap ν) → ν → Option (IdHeap ν) × Bool
  | none, _ => (none, false)
  | some i, n =>
    let ri := rangeIntersection q (i.ranges.r n)
    let ir := i.idr n
    let bit := intToU64 (ri.start - ir.bitmapStart)
    let pages := rangeSpan ri
    let order := findOrder pages
    match bitmapDealloc ir.b bit pages with
    | (_, false) => (some i, false)
    | (b, true) =>
      let pagesRounded := 2 ^ order
      -- only an aligned run of a power of two becomes the hint
      let ir := if pages = pagesRounded ∧ ri.start % pages = 0 ∧ bit < getNextBit ir order then
          setNextBit { ir with b := b } order bit else { ir with b := b }
      let deallocated := pages * 2 ^ i.pageOrder
      if i.allocated < deallocated then (none, false)
      else (some { setIdr i n ir with allocated := i.allocated - deallocated }, true)

def deallocGap (st : Option (IdHeap ν)) (_ : Range) : Option (IdHeap ν) × Bool :=
  (st, false)

def idDealloc (i : IdHeap ν) (a count : ℕ) : Option (IdHeap ν) := do
  if count = 0 then pure i else
  if a % i.pagesize ≠ 0 ∨ count % i.pagesize ≠ 0 then pure i else
  let q : Range := ⟨a / 2 ^ i.pageOrder, (a + count) / 2 ^ i.pageOrder⟩
  let (st, _) ← rangemapRangeLookupWithGaps i.ranges q (deallocFromRange q) deallocGap (some i)
  st

def setIntersection (q : Range) (validate allocate : Bool) (i : IdHeap ν) (n : ν) :
    IdHeap ν × Bool :=
  let ri := rangeIntersection q (i.ranges.r n)
  let ir := i.idr n
  let bit := intToU64 (ri.start - ir.bitmapStart)
  let (b, ok) := bitmapRangeCheckAndSet ir.b bit (rangeSpan ri) validate allocate
  (setIdr i n { ir with b := b }, ok)

def setGap (i : IdHeap ν) (_ : Range) : IdHeap ν × Bool :=
  (i, false)

/-- `set_area(i, base, length, validate, allocate)`; a failed assertion is `none`. -/
def setArea (i : IdHeap ν) (base length : ℕ) (validate allocate : Bool) :
    Option (Bool × IdHeap ν) := do
  let base := base / i.pagesize * i.pagesize
  let length := pad length i.pagesize
  let q : Range := ⟨base / 2 ^ i.pageOrder, (base + length) / 2 ^ i.pageOrder⟩
  let (i, result) ← rangemapRangeLookupWithGaps i.ranges q (setIntersection q validate allocate)
    setGap i
  if validate ∧ result = .matched then
    if allocate then pure (true, { i with allocated := i.allocated + length })
    else if i.allocated < length then none
    else pure (true, { i with allocated := i.allocated - length })
  else pure (result = .matched, i)

/-- In a heap of page size 1 with the ranges of pages `[0, 64)` and `[128, 192)`,
    `set_area(i, 0, 192, true, true)` sets the pages of the first range and then meets the gap
    `[64, 128)`, whose handler aborts: it returns false, and the first range keeps its pages
    set while `allocated` stays 0. -/
theorem setArea_partial :
    (do
      let i ← allocateIdHeap 1 blankRanges blankIdr
      let (i, _) ← idAddRange i 0 64 (some 0)
      let (i, _) ← idAddRange i 128 64 (some 1)
      let (ok, i') ← setArea i 0 192 true true
      pure (ok, WordBits.get (i.idr 0).b.words 0, WordBits.get (i'.idr 0).b.words 0,
        i'.allocated)) = some (false, false, true, 0) := by
  decide

/-! ## The operations -/

/-- The operations of an id heap, with what the rest of the kernel gives them: the
    `id_range` that `allocate` returns, the address that the parent heap returns, the
    values of `random_u64()`. -/
inductive Action (ν : Type)
  | addRange (base length : ℕ) (ir : Option ν)
  | alloc (count : ℕ) (rnd : ν → ℕ) (base : Option ℕ) (ir : Option ν)
  | dealloc (a count : ℕ)
  | setArea (base length : ℕ) (validate allocate : Bool)
  | setRandomize (randomize : Bool)
  | allocSubrange (count start end_ : ℕ) (rnd : ν → ℕ)
  | setNext (count next : ℕ)

/-- An operation on the heap; `none` for a failed assertion. -/
def step (i : IdHeap ν) : Action ν → Option (IdHeap ν)
  | .addRange base length ir => (idAddRange i base length ir).map Prod.fst
  | .alloc count rnd base ir => (idAlloc i count rnd base ir).map Prod.snd
  | .dealloc a count => idDealloc i a count
  | .setArea base length validate allocate => (setArea i base length validate allocate).map Prod.snd
  | .setRandomize randomize => some (setRandomize i randomize)
  | .allocSubrange count start end_ rnd => (allocSubrange i count start end_ rnd).map Prod.snd
  | .setNext count next => setNext i count next

end Nanos.Id
