import Nanos.IdHeapInv

set_option autoImplicit false

/-!
# `id_heap_alloc_gte` on a heap of page size 1

`id_heap_alloc_gte(i, 1, min)` first moves the order-0 hint of every range to `min`, or to the
start of a range after `min`, and then searches each range from `min` on, in address order,
with a first-fit scan of its bitmap. So a heap whose search is not randomized returns the least
free id at or above `min`, and `INVALID_PHYSICAL` only when there is none
(`id_heap_alloc_gte_least`). A randomized heap starts at a random bit instead
(`idHeapAllocGte_randomized`).
-/

namespace Nanos.Id
open ColorTree NodeHeap CTree Rbtree RbtreeNav Rangemap Bitmap RangemapMerge RangemapInsert
  RangemapLookup Intervals Transition WordBits

variable {ν : Type} [DecidableEq ν]

/-! ## `rangemap_foreach` and `set_next` -/

theorem rangemapForeach_eq {σ : Type} {s : RmState ν} {t : CTree ν} (h : TreeOk s t)
    (body : σ → ν → σ) :
    ∀ (L P : List ν) (st : σ) (fuel : ℕ), t.toList = P ++ L → L.length < fuel →
      rangemapForeach s body fuel st L.head? = some (L.foldl body st)
  | [], _, st, fuel + 1, _, _ => rfl
  | n :: L, P, st, fuel + 1, hL, hlen => by
    have hnd := hL ▸ h.ordered.nodup
    have hnP : n ∉ P := fun hn => (List.nodup_append.1 hnd).2.2 n hn n List.mem_cons_self rfl
    have hnext : rangemapNextNode s n = some L.head? := by
      rw [nextNode_eq h (by rw [hL]; simp), hL, succOf_append_cons hnP]
    simp only [List.head?_cons, rangemapForeach, hnext, Option.bind_eq_bind, Option.bind_some,
      List.foldl_cons]
    exact rangemapForeach_eq h body L (P ++ [n]) _ fuel (by rw [hL]; simp)
      (by simp only [List.length_cons] at hlen; omega)

theorem setNext_eq {i : IdHeap ν} {t : CTree ν} (hi : Inv i t) (count next : ℕ) :
    setNext i count next =
      some (t.toList.foldl (setNextRange (findOrder (pagesFromBytes i count)) next) i) := by
  have hok := hi.wf.treeOk
  rw [setNext, rbtreeFindFirst_eq hi.wf.holds.1 hi.wf.count]
  exact rangemapForeach_eq hok _ t.toList [] i _ rfl (by rw [hi.wf.count, size]; omega)

theorem setNextRange_ranges (order next : ℕ) (i : IdHeap ν) (r : ν) :
    (setNextRange order next i r).ranges = i.ranges := by
  unfold setNextRange
  split
  · rfl
  split <;> rfl

theorem setNextRange_randomize (order next : ℕ) (i : IdHeap ν) (r : ν) :
    (setNextRange order next i r).randomize = i.randomize := by
  unfold setNextRange
  split
  · rfl
  split <;> rfl

theorem setNextRange_idr_ne (order next : ℕ) (i : IdHeap ν) {r x : ν} (h : x ≠ r) :
    (setNextRange order next i r).idr x = i.idr x := by
  unfold setNextRange
  split
  · exact setIdr_idr_ne _ _ h
  split
  · exact setIdr_idr_ne _ _ h
  · rfl

theorem setNextRange_idr_congr (order next : ℕ) {i j : IdHeap ν} {r : ν}
    (hr : j.ranges = i.ranges) (hir : j.idr r = i.idr r) :
    (setNextRange order next j r).idr r = (setNextRange order next i r).idr r := by
  unfold setNextRange
  rw [hr, hir]
  split
  · simp only [setIdr_idr_self]
  split
  · simp only [setIdr_idr_self]
  · exact hir

theorem sameLayout_foldl_setNextRange (order next : ℕ) :
    ∀ (L : List ν) (i : IdHeap ν), SameLayout i (L.foldl (setNextRange order next) i)
  | [], i => SameLayout.refl i
  | y :: L, i => (sameLayout_setNextRange order next i y).trans
      (sameLayout_foldl_setNextRange order next L _)

theorem foldl_setNextRange (order next : ℕ) :
    ∀ (L : List ν) (i : IdHeap ν), L.Nodup →
      (L.foldl (setNextRange order next) i).ranges = i.ranges ∧
      (L.foldl (setNextRange order next) i).randomize = i.randomize ∧
      ∀ x, (L.foldl (setNextRange order next) i).idr x =
        if x ∈ L then (setNextRange order next i x).idr x else i.idr x
  | [], i, _ => ⟨rfl, rfl, fun x => by simp⟩
  | y :: L, i, hnd => by
    obtain ⟨hy, hnd⟩ := List.nodup_cons.1 hnd
    obtain ⟨hr, hrand, hidr⟩ := foldl_setNextRange order next L (setNextRange order next i y) hnd
    refine ⟨hr.trans (setNextRange_ranges _ _ _ _), hrand.trans (setNextRange_randomize _ _ _ _),
      fun x => ?_⟩
    rw [List.foldl_cons, hidr x]
    by_cases hxy : x = y
    · subst hxy
      simp [hy]
    · have hne := setNextRange_idr_ne order next i hxy
      by_cases hxL : x ∈ L
      · simp only [hxL, if_true, List.mem_cons, hxy, or_true]
        exact setNextRange_idr_congr order next (setNextRange_ranges _ _ _ _) hne
      · simp [hxL, hxy, hne]

/-! ## The search in one range -/

theorem wrapSearch_self (b : Bitmap) (pages x y : ℕ) :
    (wrapSearch b pages x x y).1 = (bitmapAllocWithinRange b pages x y).1 := by
  unfold wrapSearch
  split
  · next b' h =>
    rw [if_neg (Nat.lt_irrefl x), h]
  · next bit b' h =>
    rw [h]

omit [DecidableEq ν] in
theorem startBit_eq_start {i : IdHeap ν} {ir : IdRange} {ri : Range} {rnd : ℕ}
    (hrand : i.randomize = false) (h : getNextBit ir 0 = ri.start ∨ getNextBit ir 0 = 0) :
    startBit i ir 0 ri rnd = ri.start := by
  unfold startBit
  simp only [hrand, Bool.false_eq_true, false_and, if_false]
  split
  · omega
  · rfl

/-- The order-0 hint of the range `n` as `set_next(i, 1, min)` leaves it: `min` in the range
    that holds it, bit 0 in a range after `min`. -/
def HintAt (i : IdHeap ν) (n : ν) (min : ℕ) : Prop :=
  ((i.ranges.r n).start ≤ min → min < (i.ranges.r n).end →
    getNextBit (i.idr n) 0 = min - (i.idr n).bitmapStart) ∧
  (min < (i.ranges.r n).start → getNextBit (i.idr n) 0 = 0)

/-- In a heap of page size 1 that is not randomized, with the hint that `set_next(i, 1, min)`
    leaves, a request for one id at or above `min` from the range `n` returns its first clear
    bit from `min` on. -/
theorem idAllocFromRange_one {i : IdHeap ν} {n : ν} {min rnd : ℕ} (hpo : i.pageOrder = 0)
    (hrand : i.randomize = false) (hbs : (i.idr n).bitmapStart ≤ (i.ranges.r n).start)
    (hmax : (i.idr n).bitmapStart + (i.idr n).b.maxbits = (i.ranges.r n).end)
    (hend : (i.ranges.r n).end ≤ infinity) (hint : HintAt i n min) :
    (idAllocFromRange i n 1 ⟨min, infinity⟩ rnd).1 =
      (firstClear (get (i.idr n).b.words) (max (i.ranges.r n).start min - (i.idr n).bitmapStart)
        ((i.ranges.r n).end - (i.idr n).bitmapStart)).map ((i.idr n).bitmapStart + ·) := by
  obtain ⟨hin, hafter⟩ := hint
  unfold idAllocFromRange
  dsimp only
  have hfo : findOrder 1 = 0 := rfl
  rw [hfo, Nat.pow_zero]
  by_cases hm : max (i.ranges.r n).start min < (i.ranges.r n).end
  · have hri : rangeIntersection (i.ranges.r n) ⟨min, infinity⟩ =
        ⟨max (i.ranges.r n).start min, (i.ranges.r n).end⟩ := by
      rw [rangeIntersection_of_lt (by dsimp only; omega)]
      dsimp only
      rw [Nat.min_eq_left hend]
    have hpad : ∀ x, pad x 1 = x := fun x => by simp [pad]
    rw [hri, if_neg (by simp only [rangeSpan]; omega)]
    dsimp only
    rw [hpad, if_neg (by simp only [rangeSpan]; omega)]
    -- the search starts at the start of the range's part from `min` on
    rw [startBit_eq_start hrand (by
      by_cases hs : (i.ranges.r n).start ≤ min
      · exact .inl (by rw [hin hs (by omega)]; dsimp only; omega)
      · exact .inr (hafter (by omega)))]
    have hfirst := wrapSearch_self (i.idr n).b 1 (max (i.ranges.r n).start min - (i.idr n).bitmapStart)
      ((i.ranges.r n).end - (i.idr n).bitmapStart)
    rw [bitmapAllocWithinRange, bitmapAllocInternal_one, Nat.min_eq_left (by omega)] at hfirst
    split
    · next b hw =>
      rw [hw] at hfirst
      rw [← hfirst]
      rfl
    · next bit b hw =>
      rw [hw] at hfirst
      rw [← hfirst, hpo, Nat.pow_zero, Nat.mul_one]
      rfl
  · -- the range ends at or before `min`: nothing to search
    have hspan : rangeSpan (rangeIntersection (i.ranges.r n) ⟨min, infinity⟩) = 0 := by
      by_contra hne
      have := (span_ne_zero_iff _ _).1 hne
      dsimp only at this
      omega
    rw [if_pos hspan, firstClear_of_le (by omega)]
    rfl

/-! ## The loop over the ranges -/

/-- The loop over the ranges from the first of `L` on, where `P ++ L` are the ranges in
    order, returns what the first range of `L` that gives an id returns: a range that gives
    none leaves the heap as it was. -/
theorem rangesLoop_eq {i : IdHeap ν} {t : CTree ν} (h : TreeOk i.ranges t) (pages : ℕ)
    (sub : Range) (rnd : ν → ℕ) :
    ∀ (L P : List ν) (fuel : ℕ), t.toList = P ++ L → L.length < fuel →
      rangesLoop pages sub rnd fuel i L.head? =
        some (match L.find? (fun n => (idAllocFromRange i n pages sub (rnd n)).1.isSome) with
          | none => (none, i)
          | some n => idAllocFromRange i n pages sub (rnd n))
  | [], _, fuel + 1, _, _ => rfl
  | n :: L, P, fuel + 1, hL, hlen => by
    simp only [List.head?_cons, rangesLoop, List.find?_cons]
    rcases hr : idAllocFromRange i n pages sub (rnd n) with ⟨_ | a, j⟩
    · -- no id in `n`: on to the next range, with the heap as it was
      have hj : j = i := by
        have := @idAllocFromRange_of_none ν _ i n pages sub (rnd n) (by rw [hr])
        rw [hr, Prod.mk.injEq] at this
        exact this.2
      subst hj
      have hnd := hL ▸ h.ordered.nodup
      have hnP : n ∉ P := fun hn => (List.nodup_append.1 hnd).2.2 n hn n List.mem_cons_self rfl
      have hnext : rangemapNextNode j.ranges n = some L.head? := by
        rw [nextNode_eq h (by rw [hL]; simp), hL, succOf_append_cons hnP]
      simp only [hnext, Option.bind_eq_bind, Option.bind_some, Option.isSome_none]
      exact rangesLoop_eq h pages sub rnd L (P ++ [n]) fuel (by rw [hL]; simp)
        (by simp only [List.length_cons] at hlen; omega)
    · simp only [Option.isSome_some]
      exact congrArg some hr.symm

/-! ## The least free id -/

/-- An id of a heap of page size 1 that lies in one of its ranges and whose bit in that range's
    bitmap is clear: an id the heap holds and has not handed out. -/
def FreeId (i : IdHeap ν) (t : CTree ν) (x : ℕ) : Prop :=
  ∃ n ∈ t.toList, (i.ranges.r n).start ≤ x ∧ x < (i.ranges.r n).end ∧
    get (i.idr n).b.words (x - (i.idr n).bitmapStart) = false

theorem setNextRange_self (min : ℕ) (i : IdHeap ν) (n : ν) :
    ((setNextRange 0 min i n).idr n).b = (i.idr n).b ∧
    ((setNextRange 0 min i n).idr n).bitmapStart = (i.idr n).bitmapStart ∧
    ((i.ranges.r n).start ≤ min → min < (i.ranges.r n).end →
      getNextBit ((setNextRange 0 min i n).idr n) 0 = min - (i.idr n).bitmapStart) ∧
    (min < (i.ranges.r n).start → getNextBit ((setNextRange 0 min i n).idr n) 0 = 0) := by
  have hset : ∀ ir : IdRange, ∀ bit, getNextBit (setNextBit ir 0 bit) 0 = bit := fun ir bit => by
    simp [getNextBit, setNextBit, nextBitCount]
  unfold setNextRange
  split
  · next hin =>
    refine ⟨by simp, by simp, fun _ _ => by simp [hset], fun h => by omega⟩
  split
  · next hin hafter =>
    exact ⟨by simp, by simp, fun h => by omega, fun _ => by simp [hset]⟩
  · next hin hafter =>
    exact ⟨rfl, rfl, fun h1 h2 => absurd ⟨h1, h2⟩ hin, fun h => absurd h hafter⟩

omit [DecidableEq ν] in
theorem firstClear_range_some {i : IdHeap ν} {t : CTree ν} {n : ν} (hn : n ∈ t.toList)
    (hbs : (i.idr n).bitmapStart ≤ (i.ranges.r n).start) {min k : ℕ}
    (hk : firstClear (get (i.idr n).b.words) (max (i.ranges.r n).start min - (i.idr n).bitmapStart)
      ((i.ranges.r n).end - (i.idr n).bitmapStart) = some k) :
    (min ≤ (i.idr n).bitmapStart + k ∧ FreeId i t ((i.idr n).bitmapStart + k)) ∧
    ∀ y, min ≤ y → (i.ranges.r n).start ≤ y → y < (i.ranges.r n).end →
      get (i.idr n).b.words (y - (i.idr n).bitmapStart) = false → (i.idr n).bitmapStart + k ≤ y := by
  obtain ⟨h1, h2, h3, h4⟩ := firstClear_eq_some_iff.1 hk
  refine ⟨⟨by omega, n, hn, by omega, by omega, by rwa [Nat.add_sub_cancel_left]⟩,
    fun y hy1 hy2 hy3 hy4 => ?_⟩
  by_contra hlt
  have := h4 (y - (i.idr n).bitmapStart) (by omega) (by omega)
  rw [hy4] at this
  cases this

omit [DecidableEq ν] in
theorem firstClear_range_none {i : IdHeap ν} {n : ν} {min : ℕ}
    (hbs : (i.idr n).bitmapStart ≤ (i.ranges.r n).start)
    (hk : firstClear (get (i.idr n).b.words) (max (i.ranges.r n).start min - (i.idr n).bitmapStart)
      ((i.ranges.r n).end - (i.idr n).bitmapStart) = none) :
    ∀ y, min ≤ y → (i.ranges.r n).start ≤ y → y < (i.ranges.r n).end →
      get (i.idr n).b.words (y - (i.idr n).bitmapStart) = true := fun y hy1 hy2 hy3 =>
  firstClear_eq_none_iff.1 hk _ (by omega) (by omega)

/-- The id that a first-fit search of the range `n` from `min` on finds. -/
def firstFit (i : IdHeap ν) (n : ν) (min : ℕ) : Option ℕ :=
  (firstClear (get (i.idr n).b.words) (max (i.ranges.r n).start min - (i.idr n).bitmapStart)
    ((i.ranges.r n).end - (i.idr n).bitmapStart)).map ((i.idr n).bitmapStart + ·)

section search
variable {i : IdHeap ν} {t : CTree ν} {min : ℕ} {res : ν → Option ℕ}

omit [DecidableEq ν] in
theorem not_freeId_of_find_none (hbs : ∀ n ∈ t.toList, (i.idr n).bitmapStart ≤ (i.ranges.r n).start)
    (hres : ∀ n ∈ t.toList, res n = firstFit i n min)
    (hf : t.toList.find? (fun n => (res n).isSome) = none) : ∀ y, min ≤ y → ¬FreeId i t y := by
  rintro y hy ⟨n, hn, h1, h2, h3⟩
  have hnone : firstFit i n min = none := by
    rw [← hres n hn]
    simpa using List.find?_eq_none.1 hf n hn
  rw [firstFit, Option.map_eq_none_iff] at hnone
  rw [firstClear_range_none (hbs n hn) hnone y hy h1 h2] at h3
  cases h3

omit [DecidableEq ν] in
/-- The id that the first range to find one finds is the least free id at or above `min`: the
    ranges before it have none, and those after it start after it. -/
theorem isLeast_of_find_some (hi : Inv i t) (hres : ∀ n ∈ t.toList, res n = firstFit i n min)
    {n : ν} {x : ℕ} (hf : t.toList.find? (fun n => (res n).isSome) = some n) (hx : res n = some x) :
    IsLeast {y | min ≤ y ∧ FreeId i t y} x := by
  obtain ⟨-, A, B, hL, hA⟩ := List.find?_eq_some_iff_append.1 hf
  have hn : n ∈ t.toList := by rw [hL]; simp
  rw [hres n hn, firstFit, Option.map_eq_some_iff] at hx
  obtain ⟨k, hk, rfl⟩ := hx
  obtain ⟨hfree, hleast⟩ := firstClear_range_some hn (hi.bitmapStart n hn) hk
  refine ⟨hfree, ?_⟩
  rintro y ⟨hy, m, hm, h1, h2, h3⟩
  rw [hL, List.mem_append, List.mem_cons] at hm
  rcases hm with hm | rfl | hm
  · -- a range before `n` finds nothing
    have hmL : m ∈ t.toList := by rw [hL]; simp [hm]
    have hnone : firstFit i m min = none := by
      rw [← hres m hmL]
      simpa using hA m hm
    rw [firstFit, Option.map_eq_none_iff] at hnone
    rw [firstClear_range_none (hi.bitmapStart m hmL) hnone y hy h1 h2] at h3
    cases h3
  · exact hleast y hy h1 h2 h3
  · -- a range after `n` starts at or after its end
    have hch := hL ▸ hi.wf.chain
    have hnm := (List.pairwise_cons.1 (List.pairwise_append.1 hch).2.1).1 m hm
    have hk' := (firstClear_eq_some_iff.1 hk).2.1
    simp only [RmState.start, RmState.end] at hnm
    omega

end search

theorem allocSubrange_gte {j : IdHeap ν} {t : CTree ν} (hwf : WellFormed j.ranges t)
    (hps : j.pagesize = 1) (hpo : j.pageOrder = 0) (min : ℕ) (rnd : ν → ℕ) :
    allocSubrange j 1 min infinity rnd =
      if min < infinity then
        some (match t.toList.find? (fun n => (idAllocFromRange j n 1 ⟨min, infinity⟩ (rnd n)).1.isSome)
          with
          | none => (none, j)
          | some n => idAllocFromRange j n 1 ⟨min, infinity⟩ (rnd n))
      else some (none, j) := by
  have hpages : pagesFromBytes j 1 = 1 := by simp [pagesFromBytes, hps, hpo, pad, intToU64]
  have hpad : pad min 1 = min := by simp [pad]
  unfold allocSubrange
  simp only [hps, hpo, hpad, hpages, Nat.pow_zero, Nat.div_one, if_pos]
  by_cases hmin : min < infinity
  · rw [if_pos hmin, if_neg (by simp only [rangeSpan]; omega), if_neg (by simp only [rangeSpan]; omega),
      rbtreeFindFirst_eq hwf.holds.1 hwf.count]
    exact rangesLoop_eq hwf.treeOk 1 _ rnd t.toList [] _ rfl (by rw [hwf.count, size]; omega)
  · rw [if_neg hmin, if_pos (by simp only [rangeSpan]; omega)]
    rfl

/-- After `set_next(i, 1, min)`, a request for one id at or above `min` from a range of a heap
    of page size 1 that is not randomized finds what a first-fit search of it finds. -/
theorem idAllocFromRange_after_setNext {i : IdHeap ν} {t : CTree ν} (hi : Inv i t)
    (hpo : i.pageOrder = 0) (hrand : i.randomize = false) (min : ℕ) (rnd : ν → ℕ) {n : ν}
    (hn : n ∈ t.toList) :
    (idAllocFromRange (t.toList.foldl (setNextRange 0 min) i) n 1 ⟨min, infinity⟩ (rnd n)).1 =
      firstFit i n min := by
  obtain ⟨hr₁, hrand₁, hidr₁⟩ := foldl_setNextRange 0 min t.toList i hi.wf.treeOk.ordered.nodup
  have hn₁ := hidr₁ n
  rw [if_pos hn] at hn₁
  obtain ⟨hb, hbs, hin, hafter⟩ := setNextRange_self min i n
  rw [← hn₁] at hb hbs hin hafter
  rw [← hr₁] at hin hafter
  have h := @idAllocFromRange_one ν _ (t.toList.foldl (setNextRange 0 min) i) n min (rnd n)
    ((sameLayout_foldl_setNextRange 0 min t.toList i).pageOrder.trans hpo) (hrand₁.trans hrand)
    (by rw [hbs, hr₁]; exact hi.bitmapStart n hn) (by rw [hbs, hb, hr₁]; exact hi.maxbits n hn)
    (by rw [hr₁]; exact hi.end_le n hn) ⟨fun h1 h2 => by rw [hin h1 h2, hbs], hafter⟩
  rw [h, hb, hbs, hr₁]
  rfl

/-- In every reachable state of an id heap of page size 1 whose search is not randomized,
    `id_heap_alloc_gte(i, 1, min)` returns the least free id at or above `min`, and
    `INVALID_PHYSICAL` exactly when there is none. -/
theorem id_heap_alloc_gte_least {pagesize : ℕ} {R : RmState ν} {D : ν → IdRange}
    {i₀ i : IdHeap ν} (h₀ : allocateIdHeap pagesize R D = some i₀) (hp : pagesize ≠ 0)
    (h : Reachable step Env i₀ i) (hps : i.pagesize = 1) (hrand : i.randomize = false)
    (min : ℕ) (rnd : ν → ℕ) :
    ∃ t, WellFormed i.ranges t ∧ ∃ a i', idHeapAllocGte i 1 min rnd = some (a, i') ∧
      (∀ x, a = some x ↔ IsLeast {y | min ≤ y ∧ FreeId i t y} x) ∧
      (a = none ↔ ∀ y, min ≤ y → ¬FreeId i t y) := by
  obtain ⟨t, hi⟩ := reachable_inv h₀ hp h
  have hpo : i.pageOrder = 0 := by rw [hi.pageOrder, hps]; rfl
  have hpages : pagesFromBytes i 1 = 1 := by simp [pagesFromBytes, hps, hpo, pad, intToU64]
  set j := t.toList.foldl (setNextRange 0 min) i with hj
  have hset : setNext i 1 min = some j := by
    rw [setNext_eq hi, hpages]
    rfl
  have hl := sameLayout_setNext hset
  have hres := fun n (hn : n ∈ t.toList) => idAllocFromRange_after_setNext hi hpo hrand min rnd hn
  refine ⟨t, hi.wf, ?_⟩
  rw [idHeapAllocGte, hset, Option.bind_eq_bind, Option.bind_some,
    allocSubrange_gte (hl.ranges ▸ hi.wf) (hl.pagesize.trans hps) (hl.pageOrder.trans hpo)]
  by_cases hmin : min < infinity
  · rw [if_pos hmin]
    rcases hf : t.toList.find? (fun n => (idAllocFromRange j n 1 ⟨min, infinity⟩ (rnd n)).1.isSome)
      with _ | n
    · -- no range finds an id
      have hnone := not_freeId_of_find_none hi.bitmapStart hres hf
      exact ⟨none, j, rfl, fun x => ⟨fun h => (by cases h), fun hx => absurd hx.1.2 (hnone x hx.1.1)⟩,
        ⟨fun _ => hnone, fun _ => rfl⟩⟩
    · -- the first range that finds one
      obtain ⟨x, hx⟩ := Option.isSome_iff_exists.1 (List.find?_eq_some_iff_append.1 hf).1
      have hleast := isLeast_of_find_some hi hres hf hx
      refine ⟨(idAllocFromRange j n 1 ⟨min, infinity⟩ (rnd n)).1,
        (idAllocFromRange j n 1 ⟨min, infinity⟩ (rnd n)).2, rfl, fun y => ?_, ?_⟩ <;> rw [hx]
      · exact ⟨fun h => Option.some.inj h ▸ hleast, fun hy => congrArg some (hleast.unique hy)⟩
      · exact ⟨fun h => (by cases h), fun hall => absurd hleast.1.2 (hall x hleast.1.1)⟩
  · -- no id of a range reaches `infinity`
    rw [if_neg hmin]
    have hnone : ∀ y, min ≤ y → ¬FreeId i t y := by
      rintro y hy ⟨n, hn, -, h2, -⟩
      have := hi.end_le n hn
      omega
    exact ⟨none, j, rfl, fun x => ⟨fun h => (by cases h), fun hx => absurd hx.1.2 (hnone x hx.1.1)⟩,
      ⟨fun _ => hnone, fun _ => rfl⟩⟩

/-- The heap of page size 1 with the one range `[0, 64)`, all free, reached by `add_range`
    from a heap just allocated: `id_heap_alloc_gte(i, 1, 5)` returns the least free id from 5 on. -/
theorem id_heap_alloc_gte_one_range :
    ∃ i₀ i : IdHeap ℕ, allocateIdHeap 1 blankRanges blankIdr = some i₀ ∧ Reachable step Env i₀ i ∧
      i.pagesize = 1 ∧ i.randomize = false ∧
      ∃ t, WellFormed i.ranges t ∧ ∃ a i', idHeapAllocGte i 1 5 (fun _ => 0) = some (a, i') ∧
        (∀ x, a = some x ↔ IsLeast {y | 5 ≤ y ∧ FreeId i t y} x) ∧
        (a = none ↔ ∀ y, 5 ≤ y → ¬FreeId i t y) := by
  obtain ⟨i₀, h₀⟩ : ∃ i₀, allocateIdHeap 1 blankRanges blankIdr = some i₀ := ⟨_, rfl⟩
  -- the one node is fresh: the map of a heap just allocated is empty
  have hfresh : Fresh i₀ (some 0) := by
    intro n _ t ht
    have hnil := (rep_none_iff ht.holds.1).1 (by rw [← Option.some.inj h₀]; rfl)
    simp [hnil]
  obtain ⟨i, hstep⟩ : ∃ i, step i₀ (.addRange 0 64 (some 0)) = some i := by
    rw [← Option.some.inj h₀]
    exact ⟨_, rfl⟩
  have hr : Reachable step Env i₀ i := .step (.addRange 0 64 (some 0)) .init
    (show Env i₀ (.addRange 0 64 (some 0)) from ⟨hfresh, .inr (by decide)⟩) hstep
  have hps : i.pagesize = 1 := by
    rw [← Option.some.inj h₀] at hstep
    rw [← Option.some.inj hstep]
  have hrand : i.randomize = false := by
    rw [← Option.some.inj h₀] at hstep
    rw [← Option.some.inj hstep]
  exact ⟨i₀, i, h₀, hr, hps, hrand,
    id_heap_alloc_gte_least h₀ Nat.one_ne_zero hr hps hrand 5 (fun _ => 0)⟩

end Nanos.Id
