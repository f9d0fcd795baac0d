import Nanos.Bitmap
import Nanos.Rangemap
import Mathlib.Algebra.GroupWithZero.Nat

set_option autoImplicit false

/-!
# `runtime/heap/page.c`: the buddy page heap

The page heap hands out blocks of `2^o` pages from *areas* carved out of added ranges: a header
(the `struct pageheap_area` and one `page_list_elem` per page), then usable pages indexed from
the end of the header rounded down to `2^max_order` pages. Each order has a free list threaded
through `free_pages` and one buddy bit per pair of buddies. `pageheap_dealloc` finds the area of
a page from its address alone: the start of its `2^16`-page chunk, or of its range.

Addresses are physical, an area is known by the page its header starts at, and the range map is
the sorted list of its nodes (`Rangemap`). An outer `none` is undefined behaviour the model does
not follow, or a loop out of fuel. When an area ends short of its range, the pages left over
become a second area in the same chunk, which `pageheap_area_from_page` does not find
(`area_from_page_misses_second_area`).
-/

namespace Nanos.Pageheap

open Rangemap

def pageheapMaxOrder : ℕ := 9

def areaMaxPages : ℕ := 2 ^ 16

def pageIndexInvalid : ℕ := 0xffff

def pagelog : ℕ := 12

def pagesize : ℕ := 2 ^ pagelog

def invalidPhysical : ℕ := 2 ^ 64 - 1

/-- `sizeof(struct pageheap_area)`: the list links, the buddy words, `page_count` and `first`;
    `free_pages` starts at its end. -/
def areaSize : ℕ := 16 + 8 * (areaMaxPages / 64) + 4 + 2 * (pageheapMaxOrder + 1)

def pageListElemSize : ℕ := 4

def u16 (x : ℕ) : ℕ := x % 2 ^ 16

def u32 (x : ℕ) : ℕ := x % 2 ^ 32

def pageheapHeaderSize (pageCount : ℕ) : ℕ :=
  pad (areaSize + pageListElemSize * pageCount) pagesize

/-- `PAGEHEAP_AREA_MIN_SIZE`, in bytes: a header for one page, and the page. -/
def pageheapAreaMinSize : ℕ := pageheapHeaderSize 1 + pagesize

/-- The address of `area->free_pages[i]` for the area whose header starts at page `q`. -/
def freePageAddr (q i : ℕ) : ℕ := q * pagesize + areaSize + pageListElemSize * i

/-! ## Buddies -/

def pageBuddyIndex (i order : ℕ) : ℕ := i ^^^ 2 ^ order

/-- `page_buddy_first(i, order)`: `i & ~U32_FROM_BIT(order)`. -/
def pageBuddyFirst (i order : ℕ) : ℕ := i - (i &&& 2 ^ order)

/-- `page_buddy_bit(index, order)`: the bits of the lower orders come first, one per pair of
    buddies of each order; `index` is a `u16`. -/
def pageBuddyBit (index order : ℕ) : ℕ :=
  ((List.range order).map fun o => areaMaxPages / 2 ^ (o + 1)).sum + u16 index / 2 ^ (order + 1)

structure PageListElem where
  prev : ℕ
  next : ℕ

/-- `struct pageheap_area` without its list links, which the `areas` lists of the heap hold:
    the buddy bits by `page_buddy_bit`, the heads of the free lists by order, and the list
    element of each page index. -/
structure PageheapArea where
  pageCount : ℕ
  buddies : ℕ → Bool
  first : ℕ → ℕ
  freePages : ℕ → PageListElem

namespace PageheapArea

def setBit (a : PageheapArea) (bit : ℕ) (v : Bool) : PageheapArea :=
  { a with buddies := Function.update a.buddies bit v }

def setFirst (a : PageheapArea) (order v : ℕ) : PageheapArea :=
  { a with first := Function.update a.first order v }

def setElem (a : PageheapArea) (i : ℕ) (e : PageListElem) : PageheapArea :=
  { a with freePages := Function.update a.freePages i e }

def setPrev (a : PageheapArea) (i v : ℕ) : PageheapArea :=
  a.setElem i { a.freePages i with prev := v }

def setNext (a : PageheapArea) (i v : ℕ) : PageheapArea :=
  a.setElem i { a.freePages i with next := v }

end PageheapArea

open PageheapArea

def pageBuddySet (a : PageheapArea) (index order : ℕ) : PageheapArea :=
  a.setBit (pageBuddyBit index order) true

def pageBuddyClear (a : PageheapArea) (index order : ℕ) : PageheapArea :=
  a.setBit (pageBuddyBit index order) false

/-- `page_buddy_toggle(area->buddies, index, order)`: flips the bit and returns its old value,
    which says that the buddy was free. -/
def pageBuddyToggle (a : PageheapArea) (index order : ℕ) : PageheapArea × Bool :=
  let bit := pageBuddyBit index order
  let isSet := a.buddies bit
  (a.setBit bit !isSet, isSet)

/-! ## Free lists -/

/-- `pageheap_add_free(area, page_index, order)`: the page goes first on its list; `true` when
    the list was empty. -/
def pageheapAddFree (a : PageheapArea) (pageIndex order : ℕ) : PageheapArea × Bool :=
  let next := a.first order
  let a := (a.setElem pageIndex ⟨pageIndexInvalid, next⟩).setFirst order pageIndex
  if next ≠ pageIndexInvalid then (a.setPrev next pageIndex, false) else (a, true)

/-- `pageheap_remove_free(area, page_index, order)`: unlinks the page; `true` when the list is
    then empty. -/
def pageheapRemoveFree (a : PageheapArea) (pageIndex order : ℕ) : PageheapArea × Bool :=
  let e := a.freePages pageIndex
  let a := if e.next ≠ pageIndexInvalid then a.setPrev e.next e.prev else a
  if e.prev ≠ pageIndexInvalid then (a.setNext e.prev e.next, false)
  else (a.setFirst order e.next, e.next == pageIndexInvalid)

/-- The coalescing loop of `pageheap_dealloc_page` at order `maxOrder - k`: while the buddy is
    free it leaves its list and the block doubles; else the block goes on its list. The order
    reached when a list became empty or non-empty is kept in `updated`. -/
def deallocPageLoop (maxOrder : ℕ) : ℕ → PageheapArea → ℕ → ℤ → PageheapArea × ℤ
  | 0, a, index, updated =>
    let (a, empty) := pageheapAddFree a index maxOrder
    (a, if empty then maxOrder else updated)
  | k + 1, a, index, updated =>
    let pageOrder := maxOrder - (k + 1)
    let (a, buddyIsFree) := pageBuddyToggle a index pageOrder
    if buddyIsFree then
      let buddyIndex := u16 (pageBuddyIndex index pageOrder)
      let (a, empty) := pageheapRemoveFree a buddyIndex pageOrder
      deallocPageLoop maxOrder k a (min index buddyIndex) (if empty then pageOrder else updated)
    else
      let (a, empty) := pageheapAddFree a index pageOrder
      (a, if empty then pageOrder else updated)

/-- `pageheap_dealloc_page(area, index, page_order)`; above `max_order` the loop does not run. -/
def pageheapDeallocPage (maxOrder : ℕ) (a : PageheapArea) (index pageOrder : ℕ) :
    PageheapArea × ℤ :=
  if pageOrder ≤ maxOrder then deallocPageLoop maxOrder (maxOrder - pageOrder) a index (-1)
  else (a, -1)

/-- `lsb(x)`: `__builtin_ffsll(x) - 1`, the lowest set bit of a `u64`, and `-1` for zero. -/
def lsb (x : ℕ) : ℤ :=
  match (List.range 64).find? x.testBit with
  | some j => j
  | none => -1

/-- The `do ... while` loop of `pageheap_dealloc_locked`: the largest block that starts at
    `index`, is aligned to its size and ends by `endIndex` goes back, until `endIndex`. -/
def deallocLockedLoop (maxOrder endIndex : ℕ) :
    ℕ → PageheapArea → ℕ → ℤ → Option (PageheapArea × ℤ)
  | 0, _, _, _ => none
  | fuel + 1, a, index, updated => do
    let indexOrder := lsb index
    let pageOrder : ℤ := findOrder (endIndex - index)
    let pageOrder := if 0 ≤ indexOrder ∧ indexOrder < pageOrder then indexOrder else pageOrder
    let pageOrder := if index + 2 ^ pageOrder.toNat > endIndex then pageOrder - 1 else pageOrder
    -- `U32_FROM_BIT(-1)` for an empty range
    if pageOrder < 0 then none
    let (a, u) := pageheapDeallocPage maxOrder a (u16 index) pageOrder.toNat
    let index := index + 2 ^ pageOrder.toNat
    if index < endIndex then deallocLockedLoop maxOrder endIndex fuel a index (max updated u)
    else pure (a, max updated u)

/-- `pageheap_dealloc_locked(area, index, page_count)`: each round frees at least a page. -/
def pageheapDeallocLocked (maxOrder : ℕ) (a : PageheapArea) (index pageCount : ℕ) :
    Option (PageheapArea × ℤ) :=
  deallocLockedLoop maxOrder (index + pageCount) (pageCount + 1) a index (-1)

/-! ## Making an area -/

/-- `struct pageheap_range`: the pages `n.r` of an added range, and `inited`, the first page no
    area has taken. -/
structure PageheapRange where
  n : Range
  inited : ℕ

/-- One round of the range loop of `pageheap_area_new`: the room `[start, end)` for an area in
    the untaken tail of `r`, cut at the chunk boundary, with `r->inited` moved to the next chunk
    when the tail's start leaves no room before it. -/
def areaCandidate (r : PageheapRange) : PageheapRange × Option (ℕ × ℕ) :=
  let start := r.inited
  let e := r.n.end
  let minAreaSize := pageheapAreaMinSize / pagesize
  if start + minAreaSize ≤ e then
    let areaLimit := pad (start + 1) areaMaxPages
    if start + minAreaSize > areaLimit then
      let r := { r with inited := areaLimit }
      if areaLimit + minAreaSize ≤ e then (r, some (areaLimit, min e (areaLimit + areaMaxPages)))
      else (r, none)
    else (r, some (start, min e areaLimit))
  else (r, none)

/-- The range loop of `pageheap_area_new`: the ranges as it leaves them and, for the first with
    room, its position and the room. -/
def areaScan : List PageheapRange → List PageheapRange × Option (ℕ × ℕ × ℕ)
  | [] => ([], none)
  | r :: rs =>
    match areaCandidate r with
    | (r, some (start, e)) => (r :: rs, some (0, start, e))
    | (r, none) =>
      let (rs, found) := areaScan rs
      (r :: rs, found.map fun (i, start, e) => (i + 1, start, e))

/-- The `check_area_size` loop of `pageheap_area_new`: from a candidate `page_count`, the area
    whose usable pages end past `end` shrinks by the overshoot, corrected for the pages its
    smaller header gives back; an overshoot of the whole count restarts from one aligned block. -/
def checkAreaSize (maxOrder start e : ℕ) : ℕ → ℕ → Option ℕ
  | 0, _ => none
  | fuel + 1, pageCount =>
    let pageAlign := 2 ^ maxOrder - 1
    let headerSize := pageheapHeaderSize pageCount
    let pageStart := start + headerSize / pagesize
    let pageOffset := pageStart &&& pageAlign
    let areaEnd := pageStart - pageOffset + pageCount
    if areaEnd > e then
      let pageDiff := areaEnd - e
      if pageDiff ≥ pageCount then
        checkAreaSize maxOrder start e fuel (pageAlign + headerSize / pagesize)
      else
        let headerDiff := headerSize - pageheapHeaderSize (pageCount - pageDiff)
        let pageDiff :=
          if headerDiff ≠ 0 then
            let d := pageDiff - headerDiff / pagesize
            if d > pageAlign then d - pageAlign else 1
          else pageDiff
        checkAreaSize maxOrder start e fuel (pageCount - pageDiff)
    else some pageCount

/-- The first `while` of the init loop of `pageheap_area_new`, with `k = max_order - order`: the
    order grows while `index` is aligned to the next one. -/
def raiseOrder (index : ℕ) : ℕ → ℕ → ℕ
  | 0, order => order
  | k + 1, order => if index % 2 ^ (order + 1) = 0 then raiseOrder index k (order + 1) else order

/-- The second `while` of the init loop: the order falls while the block passes the last page,
    and a block that is the second of its pair marks its buddy, which is past the end. -/
def lowerOrder (maxOrder pageCount index : ℕ) : PageheapArea → ℕ → PageheapArea × ℕ
  | a, 0 => (a, 0)
  | a, order + 1 =>
    if pageCount - index < 2 ^ (order + 1) then
      let a := if order + 1 < maxOrder ∧ index ≠ pageBuddyFirst index (order + 1) then
          pageBuddySet a index (order + 1)
        else a
      lowerOrder maxOrder pageCount index a order
    else (a, order + 1)

/-- The walk of the init loop to the last element of a free list, from `next`. -/
def listTail (a : PageheapArea) : ℕ → ℕ → ℕ → Option ℕ
  | 0, _, _ => none
  | fuel + 1, last, next =>
    if next ≠ pageIndexInvalid then listTail a fuel next (a.freePages next).next else some last

/-- The locals of the init loop: the area, `order` and `last_index`. -/
structure InitState where
  area : PageheapArea
  order : ℕ
  lastIndex : ℕ

/-- The init loop of `pageheap_area_new`: each page index from `page_offset` starts the largest
    aligned block that fits, which goes at the end of its free list; a block whose buddy lies
    outside the pages sets the bit of the pair. -/
def initLoop (maxOrder pageCount : ℕ) : ℕ → InitState → ℕ → Option InitState
  | 0, _, _ => none
  | fuel + 1, s, index =>
    if index < pageCount then do
      let raised := raiseOrder index (maxOrder - s.order) s.order
      let (a, order) := lowerOrder maxOrder pageCount index s.area raised
      -- either loop running resets `last_index`
      let last := if raised = s.order ∧ order = raised then s.lastIndex else pageIndexInvalid
      let a := if order < maxOrder ∧ last = pageIndexInvalid ∧ index ≠ pageBuddyFirst index order
        then pageBuddySet a index order else a
      let last ← if last = pageIndexInvalid then listTail a (pageCount + 1) last (a.first order)
        else pure last
      let a := a.setElem index ⟨last, pageIndexInvalid⟩
      let a := if last ≠ pageIndexInvalid then a.setNext last (u16 index)
        else a.setFirst order (u16 index)
      initLoop maxOrder pageCount fuel ⟨a, order, u16 index⟩ (index + 2 ^ order)
    else pure s

/-- A fresh area of `page_count` pages: no buddy bit set and every free list empty. The list
    elements are not read before the init loop writes them. -/
def emptyArea (pageCount : ℕ) : PageheapArea :=
  ⟨pageCount, fun _ => false, fun _ => pageIndexInvalid, fun _ => ⟨pageIndexInvalid, pageIndexInvalid⟩⟩

/-- The area `pageheap_area_new` builds in the room `[start, end)`, with the pages its header and
    usable pages take from the range. -/
def initArea (maxOrder start e : ℕ) : Option (PageheapArea × ℕ) := do
  let pageCount ← checkAreaSize maxOrder start e (areaMaxPages + 1) areaMaxPages
  let headerSize := pageheapHeaderSize pageCount
  let pageOffset := (start + headerSize / pagesize) &&& (2 ^ maxOrder - 1)
  let s ← initLoop maxOrder pageCount (pageCount + 1) ⟨emptyArea pageCount, 0, pageIndexInvalid⟩
    pageOffset
  let a := if s.order < maxOrder ∧ pageCount ≠ pageBuddyFirst pageCount s.order then
      pageBuddySet s.area pageCount s.order
    else s.area
  pure (a, headerSize / pagesize + pageCount - pageOffset)

/-! ## The heap -/

/-- `struct page_heap`: the ranges, `total`, `allocated`, `max_order`, the area records by the
    page their header starts at, and the lists `areas[o]`. -/
structure PageHeap where
  ranges : List PageheapRange
  total : ℕ
  allocated : ℕ
  maxOrder : ℕ
  headers : ℕ → Option PageheapArea
  areas : ℕ → List ℕ

def listDelete (lists : ℕ → List ℕ) (q : ℕ) : ℕ → List ℕ := fun o => (lists o).erase q

def listPush (lists : ℕ → List ℕ) (o q : ℕ) : ℕ → List ℕ := Function.update lists o (q :: lists o)

def listPushBack (lists : ℕ → List ℕ) (o q : ℕ) : ℕ → List ℕ :=
  Function.update lists o (lists o ++ [q])

def ordersDown (lo hi : ℕ) : List ℕ := (List.range (hi + 1 - lo)).reverse.map (lo + ·)

def highestFree (a : PageheapArea) (lo hi : ℕ) : Option ℕ :=
  (ordersDown lo hi).find? fun o => a.first o ≠ pageIndexInvalid

/-- `pageheap_area_base(area)` for the area at page `q`: the end of its header rounded down to
    `2^max_order` pages. -/
def pageheapAreaBase (maxOrder q : ℕ) (a : PageheapArea) : ℕ :=
  let x := q * pagesize + pageheapHeaderSize a.pageCount
  x - x % 2 ^ (pagelog + maxOrder)

/-- `pageheap_index(area, p)`, the `u64` difference wrapping below the base. -/
def pageheapIndex (maxOrder q : ℕ) (a : PageheapArea) (p : ℕ) : ℕ :=
  (p + 2 ^ 64 - pageheapAreaBase maxOrder q a) % 2 ^ 64 / pagesize

/-- `pageheap_area_new()`: the header page of the new area, pushed on the list of its largest
    free order, or none when no range has room. -/
def pageheapAreaNew (h : PageHeap) : Option (PageHeap × Option ℕ) :=
  match areaScan h.ranges with
  | (ranges, none) => pure ({ h with ranges := ranges }, none)
  | (ranges, some (i, start, e)) => do
    let (a, taken) ← initArea h.maxOrder start e
    let areas := match highestFree a 0 h.maxOrder with
      | some o => listPush h.areas o start
      | none => h.areas
    pure ({ h with
      ranges := ranges.modify i fun r => { r with inited := r.inited + taken }
      headers := Function.update h.headers start (some a)
      areas := areas }, some start)

def rangemapLookup (ranges : List PageheapRange) (point : ℕ) : Option PageheapRange :=
  ranges.find? fun r => r.n.start ≤ point ∧ point < r.n.end

/-- `pageheap_area_from_page(p)`: the header page of the area of `p`, taken to start at its
    chunk, or at its range when that starts later. A page outside every range is not modelled. -/
def pageheapAreaFromPage (h : PageHeap) (p : ℕ) : Option ℕ := do
  let n ← rangemapLookup h.ranges (p / pagesize)
  let base := p - p % (areaMaxPages * pagesize)
  pure (max base (n.n.start * pagesize) / pagesize)

/-- The first loop of `pageheap_alloc`: the first area on the first non-empty list from
    `page_order` up. -/
def firstListed (h : PageHeap) (pageOrder : ℕ) : Option (ℕ × ℕ) :=
  ((List.range (h.maxOrder + 1 - pageOrder)).map (pageOrder + ·)).findSome? fun o =>
    (h.areas o).head?.map fun q => (o, q)

/-- The `while (!l)` loop of `pageheap_alloc`: new areas until one has a block of
    `page_order` or more, with the order of its largest. -/
def newAreaLoop (pageOrder : ℕ) : ℕ → PageHeap → Option (PageHeap × Option (ℕ × ℕ))
  | 0, _ => none
  | fuel + 1, h => do
    let (h, new) ← pageheapAreaNew h
    match new with
    | none => pure (h, none)
    | some q =>
      let a ← h.headers q
      match highestFree a pageOrder h.maxOrder with
      | some o => pure (h, some (o, q))
      | none => newAreaLoop pageOrder fuel h

/-- The splitting loop of `pageheap_alloc`, with `k = free_order - page_order`: each order from
    `free_order - 1` down to `page_order` marks the pair and frees the upper half. -/
def splitLoop (pageIndex pageOrder : ℕ) : ℕ → PageheapArea → PageheapArea
  | 0, a => a
  | k + 1, a =>
    let freeOrder := pageOrder + k
    let a := pageBuddySet a pageIndex freeOrder
    let a := (pageheapAddFree a (u16 (pageBuddyIndex pageIndex freeOrder)) freeOrder).1
    splitLoop pageIndex pageOrder k a

/-- The part of `pageheap_alloc` after an area is found on (or made for) the list `list_order`:
    the smallest free block of `page_order` or more is split down to `page_order`, the pages past
    `size` go back, and an area whose list emptied moves to its largest order left. -/
def allocFromArea (h : PageHeap) (size pageOrder listOrder q : ℕ) : Option (PageHeap × ℕ) := do
  let a ← h.headers q
  -- no free block of `page_order` or more reads past `first`
  let freeOrder ← ((List.range (h.maxOrder + 1 - pageOrder)).map (pageOrder + ·)).find? fun o =>
    a.first o ≠ pageIndexInvalid
  let pageIndex := a.first freeOrder
  let p := pageheapAreaBase h.maxOrder q a + pageIndex * pagesize
  let a := if freeOrder < h.maxOrder then pageBuddyClear a pageIndex freeOrder else a
  let (a, empty) := pageheapRemoveFree a pageIndex freeOrder
  let listDeleted := empty && freeOrder == listOrder
  let areas := if listDeleted then listDelete h.areas q else h.areas
  let a := splitLoop pageIndex pageOrder (freeOrder - pageOrder) a
  let pageCount := 2 ^ pageOrder
  let requested := size / pagesize
  let a ← if pageCount > requested then
      (pageheapDeallocLocked h.maxOrder a (u32 (pageIndex + requested))
        (u16 (pageCount - requested))).map Prod.fst
    else pure a
  let areas := if listDeleted ∧ 0 < listOrder then
      match highestFree a 0 (listOrder - 1) with
      | some o => listPushBack areas o q
      | none => areas
    else areas
  let h := { h with
    headers := Function.update h.headers q (some a)
    areas := areas
    allocated := h.allocated + size }
  pure (h, p)

/-- `pageheap_alloc(h, size)`: a block of `2^find_order(size)` bytes, or `INVALID_PHYSICAL`. -/
def pageheapAlloc (h : PageHeap) (size : ℕ) : Option (PageHeap × ℕ) := do
  let pageOrder : ℤ := (findOrder size : ℤ) - pagelog
  if pageOrder > h.maxOrder then return (h, invalidPhysical)
  -- `page_heap.areas + page_order` below the array
  if pageOrder < 0 then none
  let pageOrder := pageOrder.toNat
  match firstListed h pageOrder with
  | some (listOrder, q) => allocFromArea h size pageOrder listOrder q
  | none =>
    let fuel := (h.ranges.map fun r => r.n.end - r.n.start).sum + 1
    let (h, found) ← newAreaLoop pageOrder fuel h
    match found with
    | some (listOrder, q) => allocFromArea h size pageOrder listOrder q
    | none => pure (h, invalidPhysical)

/-- `pageheap_dealloc(h, p, size)`: the pages go back to the area `pageheap_area_from_page`
    names, which is filed again when a list of the order it reached changed and is its largest. -/
def pageheapDealloc (h : PageHeap) (p size : ℕ) : Option PageHeap := do
  let q ← pageheapAreaFromPage h p
  let a ← h.headers q
  let (a, updatedOrder) ← pageheapDeallocLocked h.maxOrder a
    (u32 (pageheapIndex h.maxOrder q a p)) (u16 (size / pagesize))
  let areas :=
    if 0 ≤ updatedOrder then
      let maxFreeOrder := (highestFree a updatedOrder.toNat h.maxOrder).getD 0
      if (maxFreeOrder : ℤ) = updatedOrder then listPush (listDelete h.areas q) maxFreeOrder q
      else h.areas
    else h.areas
  pure { h with
    headers := Function.update h.headers q (some a)
    areas := areas
    allocated := h.allocated - size }

def pageheapInit : PageHeap := ⟨[], 0, 0, 0, fun _ => none, fun _ => []⟩

/-- The range map insertion of a range whose start no node has, by start. -/
def insertRange (r : PageheapRange) : List PageheapRange → List PageheapRange
  | [] => [r]
  | x :: xs => if r.n.start < x.n.start then r :: x :: xs else x :: insertRange r xs

/-- `pageheap_add_range(base, length)`: `false` when the pages overlap a range already added; a
    range with the start of another that does not overlap it is the `halt` of
    `rangemap_insert`. -/
def pageheapAddRange (h : PageHeap) (base length : ℕ) : Option (PageHeap × Bool) :=
  let pageStart := base / pagesize
  let n : Range := ⟨pageStart, pageStart + length / pagesize⟩
  if h.ranges.any fun r => rangeSpan (rangeIntersection r.n n) > 0 then some (h, false)
  else if h.ranges.any fun r => r.n.start = pageStart then none
  else some ({ h with ranges := insertRange ⟨n, pageStart⟩ h.ranges, total := h.total + length },
    true)

/-- `pageheap_init_done(virt_base, max_page_size)`: the largest order; every list is empty. A
    largest page below `PAGESIZE` gives a negative order, which is not modelled. -/
def pageheapInitDone (h : PageHeap) (maxPageSize : ℕ) : Option PageHeap :=
  if pagelog ≤ findOrder maxPageSize then
    some { h with maxOrder := findOrder maxPageSize - pagelog, areas := fun _ => [] }
  else none

/-! ## Two areas in one chunk -/

/-- The heap of the one range of pages `[508, 1018)`, with 2 MiB pages. -/
def gapHeap : Option PageHeap := do
  let (h, _) ← pageheapAddRange pageheapInit (508 * pagesize) (510 * pagesize)
  pageheapInitDone h (2 ^ 21)

set_option maxRecDepth 20000 in
/-- A request for 2 MiB makes the area at page 508, whose pages end at 1014, and from the four
    pages left a second area at page 1014, whose one usable page is 1017 (index 505 from its base,
    page 512); neither has a free 2 MiB block. Pages 1017 and 511 are handed out next. Freeing
    page 1017 goes to the area at page 508, where its index is 1017, past the 1014 pages of that
    area: 1017 heads its order-0 free list, whose element for it lies inside the live page 511,
    and the area the page came from never gets it back. -/
theorem area_from_page_misses_second_area :
    ∃ h₀ h₁ h₂ h₃ h₄ a a',
      gapHeap = some h₀ ∧
      pageheapAlloc h₀ (2 ^ 21) = some (h₁, invalidPhysical) ∧
      pageheapAlloc h₁ pagesize = some (h₂, 1017 * pagesize) ∧
      pageheapAlloc h₂ pagesize = some (h₃, 511 * pagesize) ∧
      h₃.headers 1014 = some a' ∧ 505 < a'.pageCount ∧
      pageheapAreaBase h₃.maxOrder 1014 a' + 505 * pagesize = 1017 * pagesize ∧
      pageheapAreaFromPage h₃ (1017 * pagesize) = some 508 ∧
      h₃.headers 508 = some a ∧ a.pageCount = 1014 ∧
      pageheapIndex h₃.maxOrder 508 a (1017 * pagesize) = 1017 ∧
      pageheapDealloc h₃ (1017 * pagesize) pagesize = some h₄ ∧
      (h₄.headers 508).map (·.first 0) = some 1017 ∧
      (h₄.headers 1014).map (·.first 0) = some pageIndexInvalid ∧
      511 * pagesize ≤ freePageAddr 508 1017 ∧
      freePageAddr 508 1017 + pageListElemSize ≤ 512 * pagesize :=
  ⟨_, _, _, _, _, _, _, rfl, rfl, rfl, rfl, rfl, by decide, by decide, rfl, rfl, rfl, rfl, rfl,
    rfl, rfl, by decide, by decide⟩

end Nanos.Pageheap
