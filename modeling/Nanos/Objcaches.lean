import Nanos.Transition
import Mathlib.Logic.Function.Basic
import Mathlib.Data.List.Nodup
import Mathlib.Algebra.GroupWithZero.Nat

set_option autoImplicit false

/-!
# `runtime/heap/objcache.c`: the object cache

An objcache hands out objects of `object_size(o)` bytes from pages it takes from its parent. A
page's footer holds its chain of recycled objects (`free`, linked through each object's first two
bytes), the first object never handed out (`head`) and `avail`; pages with objects to give are on
the free list, the others on the full list. The parent's answers are carried by the actions.

`allocate_objcache` computes the objects per page in `u64`: a page smaller than the footer is
accepted, and the first object handed out overlaps its footer (`small_page_overlaps_footer`).
`ObjcachesInv` proves the structure for every page that holds its footer. Messages, locking and
`objcache_destroy` are not modelled.
-/

namespace Nanos.Objcaches

open Nanos.Transition

/-- `sizeof(struct footer)`: four `u16`s, the cache pointer and the list links. -/
def footerSize : ℕ := 32

def footerMagic : ℕ := 0xcafe

/-- `invalid_index`: `(u16)-1`, which ends a chain of recycled objects. -/
def invalidIndex : ℕ := 0xffff

structure Config where
  /-- `object_size(o)`. -/
  objSize : ℕ
  /-- `page_size(o)`: the size of the parent allocations. -/
  pagesize : ℕ
  objsPerPage : ℕ
  /-- The heap `(heap)o`. -/
  self : ℕ
  /-- `o->wrapper_heap`; `none` for `0`. -/
  wrapper : Option ℕ
  preallocOnly : Bool

/-- `allocate_objcache(meta, parent, objsize, pagesize, locking)`, with its checks in `u64` and the
    heap's own address `self`; `none` for `INVALID_ADDRESS`. -/
def allocateObjcache (parentPagesize objsize pagesize : UInt64) (self : ℕ) : Option Config :=
  if objsize < 2 then none
  else if pagesize < parentPagesize || ((pagesize - 1) &&& pagesize) != 0 then none
  else
    let objs := (pagesize - footerSize.toUInt64) / objsize
    if objs = 0 then none
    else
      -- too many objects per page: capped to the largest `u16`, with a warning
      some { objSize := objsize.toNat, pagesize := pagesize.toNat,
             objsPerPage := if objs ≥ 65536 then 65535 else objs.toNat,
             self := self, wrapper := none, preallocOnly := false }

/-- `struct footer`, without the list links the lists stand for. -/
structure Footer where
  magic : ℕ
  free : ℕ
  head : ℕ
  avail : ℕ
  cache : ℕ
deriving DecidableEq, Repr

structure Objcache where
  /-- The footer at the end of each page, by the page's address. -/
  footer : ℕ → Footer
  /-- `o->free`, first to last. -/
  freePages : List ℕ
  /-- `o->full`, first to last. -/
  fullPages : List ℕ
  totalObjs : ℕ
  allocedObjs : ℕ
  /-- `next_free_from_obj`: the `u16` at each object's start. -/
  mem : ℕ → ℕ

/-- A new cache; the memory of pages it does not own reads as zeros. -/
def initObjcache : Objcache := ⟨fun _ => ⟨0, 0, 0, 0, 0⟩, [], [], 0, 0, fun _ => 0⟩

section Layout

variable (c : Config)

/-- `page_from_obj`: the page of an address, its low bits cleared. -/
def pageFromObj (a : ℕ) : ℕ := a / c.pagesize * c.pagesize

def footerAddr (p : ℕ) : ℕ := p + c.pagesize - footerSize

/-- `page_from_footer(o, footer_from_page(o, p))`: the page the footer of page `p` lies in,
    where `objcache_allocate` takes its objects and which `objcache_removepage` gives back. -/
def pageOfFooter (p : ℕ) : ℕ := pageFromObj c (footerAddr c p)

def objFromIndex (p i : ℕ) : ℕ := p + i * c.objSize

/-- `index_from_obj`: `none` when one of its assertions fails. -/
def indexFromObj (p obj : ℕ) : Option ℕ :=
  if p ≤ obj ∧ obj < p + c.pagesize ∧ (obj - p) % c.objSize = 0 then
    some ((obj - p) / c.objSize % 2 ^ 16)
  else none

/-- `validate_page`: the magic is intact and the footer names this cache (or its wrapper). -/
def validatePage (f : Footer) : Bool :=
  f.magic = footerMagic && !(f.cache ≠ c.self && c.wrapper.any (f.cache ≠ ·))

end Layout

/-- `objcache_from_object(obj, parent_pagesize)` over the footers of `o`, for a power-of-two
    `parent_pagesize`: the heap that the footer of the page of `obj` names, `none`
    (`INVALID_ADDRESS`) when the footer's magic is not there. -/
def objcacheFromObject (o : Objcache) (obj parentPagesize : ℕ) : Option ℕ :=
  let f := o.footer (obj / parentPagesize * parentPagesize)
  if f.magic = footerMagic then some f.cache else none

section Operations

variable (c : Config)

def Objcache.setFooter (o : Objcache) (p : ℕ) (f : Footer) : Objcache :=
  { o with footer := Function.update o.footer p f }

/-- `list_delete(&f->list)` and `list_insert_before(&o->full, &f->list)`. -/
def Objcache.moveToFull (o : Objcache) (p : ℕ) : Objcache :=
  { o with freePages := o.freePages.erase p, fullPages := o.fullPages.erase p ++ [p] }

/-- `list_delete(&f->list)` and `list_insert_after(&o->free, &f->list)`. -/
def Objcache.moveToFree (o : Objcache) (p : ℕ) : Objcache :=
  { o with freePages := p :: o.freePages.erase p, fullPages := o.fullPages.erase p }

/-- `objcache_addpage`, the parent answering `page`: the new page with its footer, first on the
    free list; `some none` when the parent has no page, `none` when it is misaligned. -/
def objcacheAddpage (o : Objcache) (page : Option ℕ) : Option (Option (Objcache × ℕ)) :=
  match page with
  | none => some none
  | some p =>
    if p % c.pagesize ≠ 0 then none
    else
      let f : Footer := ⟨footerMagic, invalidIndex, 0, c.objsPerPage, c.wrapper.getD c.self⟩
      some (some ({ o.setFooter p f with
        freePages := p :: o.freePages, totalObjs := o.totalObjs + c.objsPerPage }, p))

/-- `objcache_removepage`: the page leaves its list, and is given back to the parent. -/
def objcacheRemovepage (o : Objcache) (p : ℕ) : Objcache :=
  { o with freePages := o.freePages.erase p, fullPages := o.fullPages.erase p,
           totalObjs := o.totalObjs - c.objsPerPage }

/-- The page `objcache_allocate` takes an object from: the first on the free list, else a new
    one (`some none`: none to be had). -/
def takePage (o : Objcache) (page : Option ℕ) : Option (Option (Objcache × ℕ)) :=
  match o.freePages with
  | p :: _ => some (some (o, p))
  | [] => if c.preallocOnly then some none else objcacheAddpage c o page

/-- The object `objcache_allocate` takes from page `p` with footer `f`: the first recycled one,
    whose link is the next, else the first uninitialised one; `none` when an assertion fails. -/
def takeObject (mem : ℕ → ℕ) (p : ℕ) (f : Footer) : Option (ℕ × Footer) :=
  if f.free ≠ invalidIndex then
    let obj := objFromIndex c p f.free
    some (obj, { f with free := mem obj })
  else if f.head ≠ invalidIndex ∧ f.head < c.objsPerPage then
    some (objFromIndex c p f.head, { f with head := f.head + 1 })
  else none

/-- `objcache_allocate` on the page `p` whose footer it took from the free list: the objects
    are those of `page_from_footer(o, f)`. -/
def allocFrom (o : Objcache) (p : ℕ) : Option (Objcache × Option ℕ) :=
  if !validatePage c (o.footer p) then some (o, none)
  else
    match takeObject c o.mem (pageOfFooter c p) (o.footer p) with
    | none => none
    | some (obj, f) =>
      if f.avail = 0 then none
      else
        let f := { f with avail := f.avail - 1 }
        -- the page's last object moves it to the full list
        let o := if f.avail = 0 then (o.setFooter p f).moveToFull p else o.setFooter p f
        if o.allocedObjs ≤ o.totalObjs then some ({ o with allocedObjs := o.allocedObjs + 1 }, some obj)
        else none

/-- `objcache_allocate(h, size)`, the parent answering `page` if asked for one: the object, or
    `none` for `INVALID_PHYSICAL`; `none` outside when an assertion fails. -/
def objcacheAllocate (o : Objcache) (size : ℕ) (page : Option ℕ) :
    Option (Objcache × Option ℕ) :=
  if size ≠ c.objSize then some (o, none)
  else
    match takePage c o page with
    | none => none
    | some none => some (o, none)
    | some (some (o, p)) => allocFrom c o p

/-- `objcache_deallocate(h, x, size)`; `none` when an assertion fails. -/
def objcacheDeallocate (o : Objcache) (x size : ℕ) : Option Objcache :=
  -- a wrong size, or a page that fails validation, leaks the object
  if size ≠ c.objSize then some o
  else
    let p := pageFromObj c x
    let f := o.footer p
    if !validatePage c f then some o
    else if f.avail = 0 ∧ f.free ≠ invalidIndex then none
    else
      -- a full page moves back to the front of the free list
      let o := if f.avail = 0 then o.moveToFree p else o
      match indexFromObj c p x with
      | none => none
      | some i =>
        let f' := { f with free := i, avail := (f.avail + 1) % 2 ^ 16 }
        if f'.avail > c.objsPerPage ∨ o.allocedObjs = 0 then none
        else some { o.setFooter p f' with
          mem := Function.update o.mem x f.free, allocedObjs := o.allocedObjs - 1 }

/-- The memory `objcache_drain` has retained and drained so far, and the pages it gave back. Its
    `bytes` counters are `u64`, so every sum and difference over them wraps. -/
structure Drain where
  cache : Objcache
  retained : ℕ
  drained : ℕ
  released : List ℕ

/-- `objcache_removepage` in a drain: the page given back is `page_from_footer(o, f)`. -/
def Drain.remove (d : Drain) (p : ℕ) : Drain :=
  { d with cache := objcacheRemovepage c d.cache p, drained := (d.drained + c.pagesize) % 2 ^ 64,
           released := d.released ++ [pageOfFooter c p] }

/-- The first pass of `objcache_drain(ch, size, retain)` over the free pages `ps`: a page with
    every object available goes back once `retain` bytes are kept; whether it returned early. -/
def drainFirst (size retain : ℕ) : List ℕ → Drain → Drain × Bool
  | [], d => (d, false)
  | p :: ps, d =>
    if d.retained ≥ retain ∧ (d.cache.footer p).avail = c.objsPerPage then
      let d := d.remove c p
      if d.drained ≥ size then (d, true) else drainFirst size retain ps d
    else
      drainFirst size retain ps
        { d with retained := (d.retained + (d.cache.footer p).avail * c.objSize) % 2 ^ 64 }

/-- The second pass: more pages with every object available go back while `retain` bytes stay. -/
def drainSecond (size retain : ℕ) : List ℕ → Drain → Drain
  | [], d => d
  | p :: ps, d =>
    if d.retained < (retain + c.pagesize) % 2 ^ 64 then d
    else if (d.cache.footer p).avail = c.objsPerPage then
      let d := d.remove c p
      if d.drained ≥ size then d
      else
        drainSecond size retain ps { d with retained := (d.retained + 2 ^ 64 - c.pagesize) % 2 ^ 64 }
    else drainSecond size retain ps d

/-- `objcache_drain(ch, size, retain)`: the cache after, the bytes drained and the pages given
    back. -/
def objcacheDrain (o : Objcache) (size retain : ℕ) : Drain :=
  let r := drainFirst c size retain o.freePages ⟨o, 0, 0, []⟩
  if r.2 then r.1 else drainSecond c size retain r.1.cache.freePages r.1

end Operations

/-! ## `objcache_validate` -/

section Validate

variable (c : Config)

/-- The loop of `objcache_validate` that walks a chain of recycled objects from `next`, `tally`
    seen so far: the length, or `none` for an index outside the page or more than `invalid_index`
    objects (a loop). The fuel bounds the iterations the tally allows. -/
def walkFree (mem : ℕ → ℕ) (p : ℕ) : ℕ → ℕ → ℕ → Option ℕ
  | 0, _, _ => none
  | fuel + 1, next, tally =>
    if next ≥ c.objsPerPage then none
    else
      let next' := mem (objFromIndex c p next)
      if next' ≠ invalidIndex ∧ tally + 1 ≤ invalidIndex then walkFree mem p fuel next' (tally + 1)
      else if tally + 1 > invalidIndex then none
      else some (tally + 1)

/-- The checks of a page on the free list: its `avail`, if they pass. The chain is walked over
    the objects of `page_from_footer(o, f)`. -/
def validateFreePage (o : Objcache) (p : ℕ) : Option ℕ :=
  let f := o.footer p
  if !validatePage c f || f.avail = 0 then none
  else if f.free = invalidIndex ∧ f.head = c.objsPerPage then none
  else
    let tally := if f.free ≠ invalidIndex
      then walkFree c o.mem (pageOfFooter c p) (invalidIndex + 1) f.free 0
      else some 0
    match tally with
    | none => none
    | some tally =>
      if f.head > c.objsPerPage then none
      else if tally + (c.objsPerPage - f.head) ≠ f.avail then none
      else some f.avail

def validateFullPage (o : Objcache) (p : ℕ) : Bool :=
  let f := o.footer p
  validatePage c f && f.avail = 0 && f.free = invalidIndex && !(f.head < c.objsPerPage)

/-- `objcache_validate`. The last check is `total_objs - total_avail == alloced_objs` in `u64`,
    which for counts below `2^64` says the two sides add up. -/
def objcacheValidate (o : Objcache) : Bool :=
  match o.freePages.mapM (validateFreePage c o) with
  | none => false
  | some avails =>
    o.fullPages.all (validateFullPage c o) &&
      (o.freePages.length + o.fullPages.length) * c.objsPerPage = o.totalObjs &&
      avails.sum + o.allocedObjs = o.totalObjs

end Validate

/-! ## Runs -/

inductive Action where
  /-- `objcache_allocate(h, size)`, the parent answering `page` if asked. -/
  | allocate (size : ℕ) (page : Option ℕ)
  /-- `objcache_deallocate(h, x, size)`. -/
  | deallocate (x size : ℕ)
  /-- `objcache_drain(ch, size, retain)`. -/
  | drain (size retain : ℕ)

structure World where
  cache : Objcache
  live : List ℕ

def initWorld : World := ⟨initObjcache, []⟩

def World.step (c : Config) (w : World) : Action → Option World
  | .allocate size page =>
    (objcacheAllocate c w.cache size page).map fun r => ⟨r.1, r.2.toList ++ w.live⟩
  | .deallocate x size => (objcacheDeallocate c w.cache x size).map fun o => ⟨o, w.live.erase x⟩
  | .drain size retain => some ⟨(objcacheDrain c w.cache size retain).cache, w.live⟩

def Objcache.pages (o : Objcache) : List ℕ := o.freePages ++ o.fullPages

/-- The callers' side: the parent answers with an aligned page the cache does not own, and only
    live objects are given back, with the object size. -/
def Allowed (c : Config) (w : World) : Action → Prop
  | .allocate _ page => ∀ p, page = some p → p % c.pagesize = 0 ∧ p ∉ w.cache.pages
  | .deallocate x size => x ∈ w.live ∧ size = c.objSize
  | .drain _ _ => True

/-! ## A page smaller than its footer -/

/-- Over a parent with 16-byte pages, `allocate_objcache` accepts 2-byte objects on 16-byte
    pages: `16 - 32` wraps in `u64`, and the objects per page are capped at 65535. The footer of
    the page at `2 ^ 20` begins 16 bytes before it, at `0xffff0`, so `page_from_footer` is
    `0xffff0`, and the first object handed out is `0xffff0`: the footer's own address, outside
    the page the parent gave. -/
theorem small_page_overlaps_footer :
    ∃ c, allocateObjcache 16 2 16 0 = some c ∧ c.objsPerPage = 65535 ∧
      (objcacheAllocate c initObjcache 2 (some (2 ^ 20))).map Prod.snd = some (some 0xffff0) ∧
      footerAddr c (2 ^ 20) ≤ 0xffff0 ∧ 0xffff0 < footerAddr c (2 ^ 20) + footerSize ∧
      0xffff0 < 2 ^ 20 :=
  ⟨_, rfl, rfl, rfl, by decide, by decide, by decide⟩

end Nanos.Objcaches
