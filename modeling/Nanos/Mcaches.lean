import Nanos.Transition
import Nanos.Objcaches
import Mathlib.Data.List.Nodup
import Mathlib.Algebra.GroupWithZero.Nat

set_option autoImplicit false

/-!
# `runtime/heap/mcache.c`: the multi-cache heap

An mcache serves `b` bytes from the first objcache whose objects hold them, or, above
`parent_threshold`, from its parent heap. A release goes by its size to the parent, or to the
objcache that `objcache_from_object` reads from the footer of the object's page; a malloc-style
mcache also takes `-1ull`, looked up in its `fallbacks` table of parent allocations.

The parent and the objcaches are the environment, and an action carries their answers; `World`
adds the live allocations. With parent allocations released by `-1ull`, every release reaches
the heap its allocation came from and `m->allocated` is the sum of the live sizes
(`reachable_inv`, `dealloc_source`). A parent allocation released with its size keeps its table
entry, and a later free can go to the parent (`stale_fallback_misroutes`).
-/

namespace Nanos.Mcaches

open Nanos.Transition

/-- `pad(x, s)` for a power of two `s`: clearing the low bits of `x - 1` rounds it down to a
    multiple of `s`, and adding `s` rounds `x` up to one. -/
def pad (x s : ℕ) : ℕ := (x - 1) / s * s + s

theorem pad_pos {s : ℕ} (x : ℕ) (hs : 0 < s) : 0 < pad x s := by
  unfold pad
  omega

structure Config where
  /-- `m->parent->pagesize`. -/
  parentPagesize : ℕ
  parentPagesize_pos : 0 < parentPagesize
  /-- `m->pagesize`: the size of the objcaches' pages, whose footers `objcache_from_object`
      reads. -/
  pagesize : ℕ
  /-- The object sizes (`o->pagesize`) of `m->caches`, in the vector's order. -/
  caches : List ℕ
  parentThreshold : ℕ
  mallocStyle : Bool

/-- The mcache that `allocate_mcache` sets up once its checks pass: one cache per order from
    `min_order` to `max_order`; larger allocations go to the parent. -/
def mcacheConfig (parentPagesize : ℕ) (hp : 0 < parentPagesize) (minOrder maxOrder pagesize : ℕ)
    (mallocStyle : Bool) : Config where
  parentPagesize := parentPagesize
  parentPagesize_pos := hp
  pagesize := pagesize
  caches := (List.range (maxOrder + 1 - minOrder)).map fun i => 2 ^ (minOrder + i)
  parentThreshold := 2 ^ maxOrder
  mallocStyle := mallocStyle

/-- `allocate_mcache(meta, parent, min_order, max_order, pagesize, malloc_style)`, `none` for
    `INVALID_ADDRESS`: a page size that is a power of two of at least the parent's, objects of at
    most `2^max_order` bytes below it, `min_order ≤ max_order`, and then an `allocate_objcache` for
    each order, any of which may refuse (after which the mcache is destroyed). -/
def allocateMcache (parentPagesize : ℕ) (hp : 0 < parentPagesize) (minOrder maxOrder pagesize : ℕ)
    (mallocStyle : Bool) : Option Config :=
  if pagesize < parentPagesize ∨ (pagesize - 1) &&& pagesize ≠ 0 then none
  else if 2 ^ maxOrder ≥ pagesize then none
  else if minOrder > maxOrder then none
  else if ((List.range (maxOrder + 1 - minOrder)).all fun i =>
      (Objcaches.allocateObjcache parentPagesize.toUInt64 (2 ^ (minOrder + i)).toUInt64
        pagesize.toUInt64 0).isSome) = false then none
  else some (mcacheConfig parentPagesize hp minOrder maxOrder pagesize mallocStyle)

/-- What `allocate_mcache` accepts: caches in increasing order of size, the largest of
    `parent_threshold` bytes, below the page size, which is at least the parent's. -/
theorem allocateMcache_spec {pp : ℕ} {hp : 0 < pp} {minOrder maxOrder pagesize : ℕ}
    {mallocStyle : Bool} {c : Config}
    (h : allocateMcache pp hp minOrder maxOrder pagesize mallocStyle = some c) :
    c.parentPagesize ≤ c.pagesize ∧ c.parentThreshold < c.pagesize ∧ c.caches ≠ [] ∧
      c.caches.Pairwise (· < ·) ∧ ∀ o ∈ c.caches, o ≤ c.parentThreshold := by
  unfold allocateMcache at h
  split_ifs at h with h₁ h₂ h₃
  cases h
  refine ⟨by simp only [mcacheConfig]; omega, by simp only [mcacheConfig]; omega, ?_, ?_, ?_⟩
  · -- one cache for each order from `min_order` to `max_order`
    simp only [mcacheConfig, ne_eq, List.map_eq_nil_iff, List.range_eq_nil]
    omega
  · simp only [mcacheConfig, List.pairwise_map]
    exact List.pairwise_lt_range.imp fun hij =>
      Nat.pow_lt_pow_right (by decide) (Nat.add_lt_add_left hij _)
  · simp only [mcacheConfig, List.mem_map, List.mem_range]
    rintro o ⟨i, hi, rfl⟩
    exact Nat.pow_le_pow_right (by decide) (by omega)

/-- A table from addresses to sizes, as `allocate_table(meta, fallback_key, pointer_equal)` makes
    it; the bucket an entry sits in is not modelled. -/
abbrev Table := List (ℕ × ℕ)

def tableGet : Table → ℕ → ℕ
  | [], _ => 0
  | (k, v) :: t, a => if k = a then v else tableGet t a

/-- `table_set(t, k, v)` for `v ≠ EMPTY`: the value of a present key is replaced. -/
def tableSet (t : Table) (k v : ℕ) : Table := (k, v) :: t.filter (·.1 ≠ k)

/-- `table_remove(t, k)`: the value of `k` (`EMPTY` if absent) and the table without it. -/
def tableRemove (t : Table) (k : ℕ) : ℕ × Table := (tableGet t k, t.filter (·.1 ≠ k))

structure Mcache where
  allocated : ℕ
  /-- `m->fallbacks`; `none` while it is `0`. -/
  fallbacks : Option Table
deriving DecidableEq, Repr

def initMcache : Mcache := ⟨0, none⟩

/-- A heap of the mcache: where an allocation comes from and where its release goes. -/
inductive Source where
  /-- The parent heap, for `size` padded bytes. -/
  | parent (size : ℕ)
  /-- The objcache of `size`-byte objects. -/
  | cache (size : ℕ)
deriving DecidableEq, Repr

/-- What `m->allocated` counts for an allocation from the heap. -/
def Source.size : Source → ℕ
  | .parent s | .cache s => s

def Source.isParent : Source → Bool
  | .parent _ => true
  | .cache _ => false

/-- The heap `mcache_alloc(h, b)` asks: the parent above `parent_threshold`, else the first cache
    whose objects hold `b` bytes (none when no cache does). -/
def allocSource (c : Config) (b : ℕ) : Option Source :=
  if b > c.parentThreshold then some (.parent (pad b c.parentPagesize))
  else (c.caches.find? (b ≤ ·)).map .cache

/-- The table of `mcache_alloc`'s fallback branch: a malloc-style mcache makes it at its first
    parent allocation. -/
def ensureFallbacks (c : Config) (m : Mcache) : Option Table :=
  if c.mallocStyle && m.fallbacks.isNone then some [] else m.fallbacks

/-- `mcache_alloc(h, b)`, where `a` is the answer of the heap `allocSource c b` names (`none` for
    `INVALID_PHYSICAL`). -/
def mcacheAlloc (c : Config) (m : Mcache) (b : ℕ) (a : Option ℕ) : Mcache × Option ℕ :=
  if b > c.parentThreshold then
    match a with
    | some a =>
      (⟨m.allocated + pad b c.parentPagesize, (ensureFallbacks c m).map (tableSet · a b)⟩, some a)
    | none => (⟨m.allocated, ensureFallbacks c m⟩, none)
  else
    match c.caches.find? (b ≤ ·) with
    | some o =>
      match a with
      | some a => ({ m with allocated := m.allocated + o }, some a)
      | none => (m, none)
    | none => (m, none)

/-- The size `mcache_dealloc(h, a, b)` releases to the parent (`0` for none) and the table after
    it looked; `b = none` is `-1ull`. A known size decides by itself, without the table. -/
def parentSize (c : Config) (m : Mcache) (a : ℕ) : Option ℕ → ℕ × Option Table
  | some b => (if b > c.parentThreshold then pad b c.parentPagesize else 0, m.fallbacks)
  | none =>
    match m.fallbacks with
    | some t =>
      let r := tableRemove t a
      (if r.1 > 0 then pad r.1 c.parentPagesize else 0, some r.2)
    | none => (0, none)

/-- `mcache_dealloc(h, a, b)`, with `b = none` for `-1ull` and `found` the object size of the cache
    `objcache_from_object(a, m->pagesize)` reads from the page footer (`none` for
    `INVALID_ADDRESS`). Gives the heap `a` is released to (`none`: leaked), or `none` when an
    assertion fails. -/
def mcacheDealloc (c : Config) (m : Mcache) (a : ℕ) (b : Option ℕ) (found : Option ℕ) :
    Option (Mcache × Option Source) :=
  let r := parentSize c m a b
  let m := { m with fallbacks := r.2 }
  if r.1 ≠ 0 then
    if r.1 ≤ m.allocated then some ({ m with allocated := m.allocated - r.1 }, some (.parent r.1))
    else none
  else
    match found with
    | none => some (m, none)
    | some o =>
      -- a given size larger than the found cache's objects is reported and leaked
      if b.any (· > o) then some (m, none)
      else if o ≤ m.allocated then some ({ m with allocated := m.allocated - o }, some (.cache o))
      else none

inductive Action where
  /-- `mcache_alloc(h, b)`, the asked heap answering `a`. -/
  | alloc (b : ℕ) (a : Option ℕ)
  /-- `mcache_dealloc(h, a, b)`, the footer of `a` naming the cache `found`. -/
  | dealloc (a : ℕ) (b : Option ℕ) (found : Option ℕ)

def step (c : Config) (m : Mcache) : Action → Option Mcache
  | .alloc b a => some (mcacheAlloc c m b a).1
  | .dealloc a b found => (mcacheDealloc c m a b found).map Prod.fst

/-! ## Live allocations -/

structure Live where
  addr : ℕ
  size : ℕ
  source : Source
deriving DecidableEq, Repr

structure World where
  mcache : Mcache
  live : List Live
deriving DecidableEq, Repr

def initWorld : World := ⟨initMcache, []⟩

/-- The allocation `mcache_alloc(h, b)` hands out when the heap it asks answers `a`. -/
def served (c : Config) (b : ℕ) (a : Option ℕ) : Option Live :=
  match a, allocSource c b with
  | some x, some s => some ⟨x, b, s⟩
  | _, _ => none

def World.step (c : Config) (w : World) : Action → Option World
  | .alloc b a => some ⟨(mcacheAlloc c w.mcache b a).1, (served c b a).toList ++ w.live⟩
  | .dealloc a b found =>
    (mcacheDealloc c w.mcache a b found).map fun r => ⟨r.1, w.live.filter (·.addr ≠ a)⟩

theorem world_step_mcache (c : Config) (w : World) (act : Action) :
    (World.step c w act).map World.mcache = step c w.mcache act := by
  cases act with
  | alloc b a => rfl
  | dealloc a b found =>
    simp only [World.step, step, Option.map_map]
    rfl

/-- The table of the live parent allocations, address to size asked for: what `m->fallbacks`
    is meant to hold. -/
def liveTable (live : List Live) : Table :=
  (live.filter (·.source.isParent)).map fun l => (l.addr, l.size)

/-- The callers' side: the heaps answer with addresses not in use, and a release names a live
    allocation with its size or, in a malloc-style mcache, `-1ull`, where the footer of an
    objcache object names its cache. A malloc-style mcache's parent allocations are released with
    `-1ull` only. -/
def Allowed (c : Config) (w : World) : Action → Prop
  | .alloc _ a => ∀ x, a = some x → x ∉ w.live.map Live.addr
  | .dealloc a b found => ∃ l ∈ w.live, l.addr = a ∧
      (b = some l.size ∨ b = none ∧ c.mallocStyle = true) ∧
      (∀ o, l.source = .cache o → found = some o) ∧
      (c.mallocStyle = true → l.source.isParent = true → b = none)

def Sized (c : Config) (l : Live) : Prop :=
  match l.source with
  | .parent s => c.parentThreshold < l.size ∧ s = pad l.size c.parentPagesize
  | .cache o => l.size ≤ c.parentThreshold ∧ l.size ≤ o

structure Inv (c : Config) (w : World) : Prop where
  nodup : (w.live.map Live.addr).Nodup
  sized : ∀ l ∈ w.live, Sized c l
  allocated : w.mcache.allocated = (w.live.map (·.source.size)).sum
  /-- The table, read as a map, is that of the live parent allocations. -/
  table : ∀ t, w.mcache.fallbacks = some t → ∀ a, tableGet t a = tableGet (liveTable w.live) a
  untracked : w.mcache.fallbacks = none → c.mallocStyle = true →
    ∀ l ∈ w.live, l.source.isParent = false
  style : w.mcache.fallbacks ≠ none → c.mallocStyle = true

/-! ### Tables -/

section Tables

@[simp] theorem tableGet_nil (a : ℕ) : tableGet [] a = 0 := rfl

@[simp] theorem tableGet_cons (k v a : ℕ) (t : Table) :
    tableGet ((k, v) :: t) a = if k = a then v else tableGet t a := rfl

theorem tableGet_filter (t : Table) (k a : ℕ) :
    tableGet (t.filter (·.1 ≠ k)) a = if k = a then 0 else tableGet t a := by
  induction t with
  | nil => simp
  | cons e t ih =>
    obtain ⟨k', v⟩ := e
    by_cases hk : k' = k
    · subst hk
      simp only [List.filter_cons, ne_eq, not_true_eq_false, decide_false, Bool.false_eq_true,
        ↓reduceIte, ih, tableGet_cons]
      split <;> simp_all
    · have hkeep : decide (k' ≠ k) = true := by simp [hk]
      simp only [List.filter_cons, hkeep, ↓reduceIte, tableGet_cons, ih]
      by_cases hka : k = a
      · subst hka
        simp [hk]
      · simp [hka]

theorem tableGet_tableSet (t : Table) (k v a : ℕ) :
    tableGet (tableSet t k v) a = if k = a then v else tableGet t a := by
  simp only [tableSet, tableGet_cons, tableGet_filter]
  split <;> rfl

@[simp] theorem liveTable_nil : liveTable [] = [] := rfl

theorem liveTable_cons (l : Live) (live : List Live) :
    liveTable (l :: live) =
      if l.source.isParent then (l.addr, l.size) :: liveTable live else liveTable live := by
  unfold liveTable
  cases h : l.source.isParent <;> simp [h]

theorem liveTable_filter (live : List Live) (a : ℕ) :
    liveTable (live.filter (·.addr ≠ a)) = (liveTable live).filter (·.1 ≠ a) := by
  unfold liveTable
  simp only [List.filter_filter, List.filter_map]
  congr 1
  apply List.filter_congr
  intro l _
  simp [Function.comp, Bool.and_comm]

theorem tableGet_liveTable_of_not_mem {live : List Live} {a : ℕ}
    (ha : a ∉ live.map Live.addr) : tableGet (liveTable live) a = 0 := by
  induction live with
  | nil => rfl
  | cons l live ih =>
    simp only [List.map_cons, List.mem_cons, not_or] at ha
    rw [liveTable_cons]
    split <;> simp [Ne.symm ha.1, ih ha.2]

theorem tableGet_liveTable_of_mem {live : List Live} (hnd : (live.map Live.addr).Nodup)
    {l : Live} (hl : l ∈ live) :
    tableGet (liveTable live) l.addr = if l.source.isParent then l.size else 0 := by
  induction live with
  | nil => simp at hl
  | cons l' live ih =>
    simp only [List.map_cons, List.nodup_cons, List.mem_map] at hnd
    obtain ⟨hfresh, hnd⟩ := hnd
    rcases List.mem_cons.1 hl with rfl | hl
    · rw [liveTable_cons]
      have hnot : l.addr ∉ live.map Live.addr := fun h =>
        hfresh (by simpa [eq_comm] using h)
      cases h : l.source.isParent <;> simp [tableGet_liveTable_of_not_mem hnot]
    · have hne : l'.addr ≠ l.addr := fun h => hfresh ⟨l, hl, h.symm⟩
      rw [liveTable_cons]
      split <;> simp [hne, ih hnd hl]

end Tables

/-! ### The invariant -/

section Invariant

variable {c : Config}

theorem sum_filter_addr {live : List Live} (hnd : (live.map Live.addr).Nodup) {l : Live}
    (hl : l ∈ live) (f : Live → ℕ) :
    ((live.filter (·.addr ≠ l.addr)).map f).sum + f l = (live.map f).sum := by
  induction live with
  | nil => simp at hl
  | cons l' live ih =>
    simp only [List.map_cons, List.nodup_cons, List.mem_map] at hnd
    obtain ⟨hfresh, hnd⟩ := hnd
    rcases List.mem_cons.1 hl with rfl | hl
    · have hgone : live.filter (·.addr ≠ l.addr) = live := by
        rw [List.filter_eq_self]
        intro l'' hl''
        simpa using fun h => hfresh ⟨l'', hl'', h⟩
      simp only [List.filter_cons, ne_eq, not_true_eq_false, decide_false, Bool.false_eq_true,
        ↓reduceIte, hgone, List.map_cons, List.sum_cons]
      omega
    · have hne : l'.addr ≠ l.addr := fun h => hfresh ⟨l, hl, h.symm⟩
      simp only [List.filter_cons, ne_eq, hne, not_false_eq_true, decide_true, ↓reduceIte,
        List.map_cons, List.sum_cons]
      rw [Nat.add_assoc, ih hnd hl]

theorem Inv.nodup_filter {w : World} (hw : Inv c w) (a : ℕ) :
    ((w.live.filter (·.addr ≠ a)).map Live.addr).Nodup :=
  hw.nodup.sublist (List.filter_sublist.map _)

theorem inv_initWorld : Inv c initWorld where
  nodup := List.nodup_nil
  sized := by simp [initWorld]
  allocated := rfl
  table := by simp [initWorld, initMcache]
  untracked := by simp [initWorld]
  style := by simp [initWorld, initMcache]

theorem allocSource_sized {b : ℕ} {s : Source} (hs : allocSource c b = some s) (x : ℕ) :
    Sized c ⟨x, b, s⟩ := by
  unfold allocSource at hs
  split at hs
  · cases hs
    exact ⟨by omega, rfl⟩
  · obtain ⟨o, ho, rfl⟩ := Option.map_eq_some_iff.1 hs
    show b ≤ c.parentThreshold ∧ b ≤ o
    exact ⟨by omega, by simpa using List.find?_some ho⟩

theorem Inv.ensuredTable {w : World} (hw : Inv c w) :
    ∀ t, ensureFallbacks c w.mcache = some t → ∀ a, tableGet t a = tableGet (liveTable w.live) a := by
  intro t ht a
  unfold ensureFallbacks at ht
  split at ht
  · cases ht
    rename_i hnew
    simp only [Bool.and_eq_true, Option.isNone_iff_eq_none] at hnew
    have hnone : liveTable w.live = [] := by
      unfold liveTable
      simp only [List.map_eq_nil_iff, List.filter_eq_nil_iff]
      intro l hl
      simp [hw.untracked hnew.2 hnew.1 l hl]
    simp [hnone]
  · exact hw.table t ht a

theorem ensureFallbacks_ne_none (m : Mcache) (h : c.mallocStyle = true) :
    ensureFallbacks c m ≠ none := by
  unfold ensureFallbacks
  split <;> simp_all

theorem Inv.ensureFallbacks_style {w : World} (hw : Inv c w) :
    ensureFallbacks c w.mcache ≠ none → c.mallocStyle = true := by
  unfold ensureFallbacks
  split
  · simp_all
  · exact hw.style

theorem alloc_inv {w : World} {b : ℕ} {a : Option ℕ} (hw : Inv c w)
    (hok : Allowed c w (.alloc b a)) :
    Inv c ⟨(mcacheAlloc c w.mcache b a).1, (served c b a).toList ++ w.live⟩ := by
  cases a with
  | none =>
    -- a refused allocation changes at most the table, which it may make
    have hserved : served c b none = none := rfl
    simp only [hserved, Option.toList_none, List.nil_append]
    unfold mcacheAlloc
    split
    · exact ⟨hw.nodup, hw.sized, hw.allocated, hw.ensuredTable,
        fun hnone hstyle => absurd hnone (ensureFallbacks_ne_none _ hstyle),
        hw.ensureFallbacks_style⟩
    · split <;> exact hw
  | some x =>
    have hfresh : x ∉ w.live.map Live.addr := hok x rfl
    unfold mcacheAlloc
    split
    · rename_i hb
      have hsrc : allocSource c b = some (.parent (pad b c.parentPagesize)) := by
        simp [allocSource, hb]
      have hserved : served c b (some x) = some ⟨x, b, .parent (pad b c.parentPagesize)⟩ := by
        simp [served, hsrc]
      simp only [hserved, Option.toList_some, List.singleton_append]
      refine ⟨List.nodup_cons.2 ⟨hfresh, hw.nodup⟩, ?_, ?_, ?_, ?_, ?_⟩
      · exact List.forall_mem_cons.2 ⟨allocSource_sized hsrc x, hw.sized⟩
      · simp [hw.allocated, Source.size, Nat.add_comm]
      · intro t ht a'
        obtain ⟨t0, ht0, rfl⟩ := Option.map_eq_some_iff.1 ht
        simp [tableGet_tableSet, liveTable_cons, Source.isParent, hw.ensuredTable t0 ht0 a']
      · intro hnone hstyle
        simp [ensureFallbacks_ne_none _ hstyle] at hnone
      · intro hsome
        exact hw.ensureFallbacks_style (by simpa using hsome)
    · rename_i hb
      split
      · rename_i o ho
        have hsrc : allocSource c b = some (.cache o) := by
          simp [allocSource, hb, ho]
        have hserved : served c b (some x) = some ⟨x, b, .cache o⟩ := by
          simp [served, hsrc]
        simp only [hserved, Option.toList_some, List.singleton_append]
        refine ⟨List.nodup_cons.2 ⟨hfresh, hw.nodup⟩, ?_, ?_, ?_, ?_, hw.style⟩
        · exact List.forall_mem_cons.2 ⟨allocSource_sized hsrc x, hw.sized⟩
        · simp [hw.allocated, Source.size, Nat.add_comm]
        · intro t ht a'
          simp [liveTable_cons, Source.isParent, hw.table t ht a']
        · intro hnone hstyle l hl
          rcases List.mem_cons.1 hl with rfl | hl
          · rfl
          · exact hw.untracked hnone hstyle l hl
      · rename_i hnone
        have hserved : served c b (some x) = none := by
          simp [served, allocSource, hb, hnone]
        simpa [hserved] using hw

theorem parentSize_snd (m : Mcache) (a : ℕ) (b : Option ℕ) :
    (parentSize c m a b).2 =
      if b.isNone then m.fallbacks.map (·.filter (·.1 ≠ a)) else m.fallbacks := by
  cases b with
  | some b => rfl
  | none => cases h : m.fallbacks <;> simp [parentSize, h, tableRemove]

theorem Inv.parentSize_fst {w : World} (hw : Inv c w) {l : Live} (hl : l ∈ w.live)
    {b : Option ℕ} (hb : b = some l.size ∨ b = none ∧ c.mallocStyle = true) :
    (parentSize c w.mcache l.addr b).1 = if l.source.isParent then l.source.size else 0 := by
  have hsized := hw.sized l hl
  unfold Sized at hsized
  rcases hb with rfl | ⟨rfl, hstyle⟩
  · -- a known size decides by the threshold alone
    cases hs : l.source with
    | parent s =>
      rw [hs] at hsized
      simp [parentSize, hsized.1, hsized.2, Source.isParent, Source.size]
    | cache o =>
      rw [hs] at hsized
      simp [parentSize, Nat.not_lt.2 hsized.1, Source.isParent]
  · -- `-1ull`: the table answers
    cases ht : w.mcache.fallbacks with
    | none =>
      simp [parentSize, ht, hw.untracked ht hstyle l hl]
    | some t =>
      have hget : tableGet t l.addr = if l.source.isParent then l.size else 0 := by
        rw [hw.table t ht, tableGet_liveTable_of_mem hw.nodup hl]
      cases hs : l.source with
      | parent s =>
        rw [hs] at hsized hget
        have hpos : 0 < l.size := by omega
        simp [parentSize, ht, tableRemove, hget, hpos, hsized.2, Source.isParent, Source.size]
      | cache o =>
        rw [hs] at hget
        simp [parentSize, ht, tableRemove, hget, Source.isParent]

/-- The spec of `mcache_dealloc` on a live allocation named as the callers must: it is released
    to the heap it came from, and `m->allocated` loses its size. -/
theorem Inv.mcacheDealloc_live {w : World} (hw : Inv c w) {l : Live} (hl : l ∈ w.live)
    {b found : Option ℕ} (hb : b = some l.size ∨ b = none ∧ c.mallocStyle = true)
    (hfound : ∀ o, l.source = .cache o → found = some o) :
    mcacheDealloc c w.mcache l.addr b found =
      some (⟨w.mcache.allocated - l.source.size, (parentSize c w.mcache l.addr b).2⟩,
        some l.source) := by
  have hle : l.source.size ≤ w.mcache.allocated := by
    have := sum_filter_addr hw.nodup hl (·.source.size)
    rw [hw.allocated]
    omega
  have hsize := hw.parentSize_fst hl hb
  have hsized := hw.sized l hl
  unfold Sized at hsized
  unfold mcacheDealloc
  cases hs : l.source with
  | parent s =>
    rw [hs] at hsized hsize hle
    have hs0 : s ≠ 0 := by
      rw [hsized.2]
      exact Nat.pos_iff_ne_zero.1 (pad_pos _ c.parentPagesize_pos)
    simp only [Source.isParent, Source.size, ↓reduceIte] at hsize hle
    simp [hsize, hs0, hle, Source.size]
  | cache o =>
    rw [hs] at hsized hsize hle
    simp only [Source.isParent, Bool.false_eq_true, ↓reduceIte, Source.size] at hsize hle
    -- the size given, if any, is the object's, which its cache holds
    have hany : b.any (· > o) = false := by
      rcases hb with rfl | ⟨rfl, -⟩
      · simpa using hsized.2
      · rfl
    simp [hsize, hfound o hs, hany, hle, Source.size]

theorem dealloc_inv {w : World} {l : Live} {b : Option ℕ} (hw : Inv c w)
    (hl : l ∈ w.live) (hstyle : c.mallocStyle = true → l.source.isParent = true → b = none) :
    Inv c ⟨⟨w.mcache.allocated - l.source.size, (parentSize c w.mcache l.addr b).2⟩,
      w.live.filter (·.addr ≠ l.addr)⟩ := by
  have hsum := sum_filter_addr hw.nodup hl (·.source.size)
  refine ⟨hw.nodup_filter l.addr, fun l' hl' => hw.sized l' (List.mem_filter.1 hl').1, ?_, ?_, ?_,
    ?_⟩
  · simp only
    rw [hw.allocated]
    omega
  · -- the table loses the entry of the address, which only a parent allocation has
    intro t ht a'
    rw [parentSize_snd] at ht
    simp only [liveTable_filter, tableGet_filter]
    split at ht
    · obtain ⟨t0, ht0, rfl⟩ := Option.map_eq_some_iff.1 ht
      rw [tableGet_filter, hw.table t0 ht0]
    · have hcache : l.source.isParent = false := by
        cases hp : l.source.isParent
        · rfl
        · have := hstyle (hw.style fun h => by simp [h] at ht) hp
          simp_all
      rw [hw.table t ht]
      split
      · rename_i hla
        subst hla
        simp [tableGet_liveTable_of_mem hw.nodup hl, hcache]
      · rfl
  · intro hnone hst l' hl'
    rw [parentSize_snd] at hnone
    have hold : w.mcache.fallbacks = none := by
      split at hnone
      · simpa using hnone
      · exact hnone
    exact hw.untracked hold hst l' (List.mem_filter.1 hl').1
  · intro hsome
    rw [parentSize_snd] at hsome
    apply hw.style
    split at hsome
    · simpa using hsome
    · exact hsome

theorem step_inv {w w' : World} {act : Action} (hw : Inv c w) (hok : Allowed c w act)
    (hs : World.step c w act = some w') : Inv c w' := by
  cases act with
  | alloc b a =>
    cases hs
    exact alloc_inv hw hok
  | dealloc a b found =>
    obtain ⟨l, hl, rfl, hb, hfound, hstyle⟩ := hok
    simp only [World.step, hw.mcacheDealloc_live hl hb hfound, Option.map_some,
      Option.some.injEq] at hs
    subst hs
    exact dealloc_inv hw hl hstyle

/-- In every run of callers keeping the contract, the mcache's count is the sum of the live
    sizes and its table is the map of the live parent allocations. -/
theorem reachable_inv {w : World} (hw : Reachable (World.step c) (Allowed c) initWorld w) :
    Inv c w :=
  hw.invariant (Inv c) inv_initWorld fun _ _ _ hi hok hs => step_inv hi hok hs

/-- In such a run, every release reaches the heap the allocation came from. -/
theorem dealloc_source {w : World} {a : ℕ} {b found : Option ℕ}
    (hw : Reachable (World.step c) (Allowed c) initWorld w)
    (hok : Allowed c w (.dealloc a b found)) :
    ∃ l ∈ w.live, l.addr = a ∧
      (mcacheDealloc c w.mcache a b found).map Prod.snd = some (some l.source) := by
  obtain ⟨l, hl, rfl, hb, hfound, -⟩ := hok
  exact ⟨l, hl, rfl, by simp [(reachable_inv hw).mcacheDealloc_live hl hb hfound]⟩

/-- In every run of callers keeping the contract, `m->allocated` is the sum of what the live
    allocations took from their heaps, and each release the contract allows reaches the heap its
    allocation came from. -/
theorem mcache_reachable_spec {w : World} (hw : Reachable (World.step c) (Allowed c) initWorld w) :
    w.mcache.allocated = (w.live.map (·.source.size)).sum ∧
      ∀ a b found, Allowed c w (.dealloc a b found) → ∃ l ∈ w.live, l.addr = a ∧
        (mcacheDealloc c w.mcache a b found).map Prod.snd = some (some l.source) :=
  ⟨(reachable_inv hw).allocated, fun _ _ _ hok => dealloc_source hw hok⟩

/-- A malloc-style mcache with caches of `2^5` to `2^16` bytes: 128 KiB from the parent and 32
    bytes from a cache. -/
theorem mcache_reachable_spec_two :
    ∃ w, run (World.step (mcacheConfig 4096 (by decide) 5 16 (2 ^ 21) true)) initWorld
        [.alloc (2 ^ 17) (some (2 ^ 22)), .alloc 32 (some (2 ^ 23))] = some w ∧
      w.mcache.allocated = (w.live.map (·.source.size)).sum ∧
      ∀ a b found, Allowed (mcacheConfig 4096 (by decide) 5 16 (2 ^ 21) true) w
        (.dealloc a b found) → ∃ l ∈ w.live, l.addr = a ∧
        (mcacheDealloc (mcacheConfig 4096 (by decide) 5 16 (2 ^ 21) true) w.mcache a b
          found).map Prod.snd = some (some l.source) := by
  obtain ⟨w, hw⟩ : ∃ w, run (World.step (mcacheConfig 4096 (by decide) 5 16 (2 ^ 21) true))
      initWorld [.alloc (2 ^ 17) (some (2 ^ 22)), .alloc 32 (some (2 ^ 23))] = some w := ⟨_, rfl⟩
  refine ⟨w, hw, mcache_reachable_spec (Reachable.of_run_allowed hw ?_)⟩
  -- each allocation is at an address not live
  refine ⟨fun x hx => by cases hx; simp [initWorld], fun w₁ h₁ => ?_⟩
  cases h₁
  exact ⟨fun x hx => by cases hx; decide, fun _ _ => trivial⟩

end Invariant

/-! ## A parent allocation released with its size -/

/-- `heaps.malloc` of `kernel/init.c`: caches of `2^5` to `2^16` bytes on 2 MiB pages over the
    linear backed heap, whose pages are 4 KiB, released to malloc-style. -/
def heapsMalloc : Config := mcacheConfig 4096 (by decide) 5 16 (2 ^ 21) true

theorem allocateMcache_heapsMalloc :
    allocateMcache 4096 (by decide) 5 16 (2 ^ 21) true = some heapsMalloc := by
  rfl

/-- A malloc-style mcache's parent allocation released with its size keeps its table entry
    although nothing is live; the parent hands the address out again as a 2 MiB objcache page, and
    `free` of the page's first object, a live 32-byte object, releases 128 KiB from it to the
    parent. -/
theorem stale_fallback_misroutes :
    run (World.step heapsMalloc) initWorld
        [.alloc (2 ^ 17) (some (2 ^ 22)), .dealloc (2 ^ 22) (some (2 ^ 17)) none] =
      some ⟨⟨0, some [(2 ^ 22, 2 ^ 17)]⟩, []⟩ ∧
    ∃ w, run (World.step heapsMalloc) initWorld
        [.alloc (2 ^ 17) (some (2 ^ 22)), .dealloc (2 ^ 22) (some (2 ^ 17)) none,
          .alloc (2 ^ 17) (some (2 ^ 23)), .alloc 32 (some (2 ^ 22))] = some w ∧
      w.live = [⟨2 ^ 22, 32, .cache 32⟩, ⟨2 ^ 23, 2 ^ 17, .parent (2 ^ 17)⟩] ∧
      mcacheDealloc heapsMalloc w.mcache (2 ^ 22) none (some 32) =
        some (⟨32, some [(2 ^ 23, 2 ^ 17)]⟩, some (.parent (2 ^ 17))) :=
  ⟨rfl, _, rfl, rfl, rfl⟩

end Nanos.Mcaches
