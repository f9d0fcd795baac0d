import Nanos.IdHeap
import Nanos.Transition

set_option autoImplicit false

/-!
# The layout of an id heap's ranges

Every range of an id heap is a node of a well-formed range map below `infinity`, with a bitmap
that starts at `bitmap_start`, at or before the range, and ends with the range (`Inv`). Only
`id_add_range` changes that layout; every other operation changes bitmaps and hints, and keeps
the ranges, the start and the length of every bitmap (`SameLayout`). So the layout holds in
every reachable state of a heap (`reachable_inv`).
-/

namespace Nanos.Id
open ColorTree NodeHeap CTree Rbtree RbtreeNav Rangemap Bitmap RangemapMerge RangemapInsert
  RangemapLookup Intervals Transition

variable {ν : Type} [DecidableEq ν]

/-! ## The model's small lemmas -/

@[simp] theorem setIdr_ranges (i : IdHeap ν) (n : ν) (ir : IdRange) :
    (setIdr i n ir).ranges = i.ranges := rfl

@[simp] theorem setIdr_pagesize (i : IdHeap ν) (n : ν) (ir : IdRange) :
    (setIdr i n ir).pagesize = i.pagesize := rfl

@[simp] theorem setIdr_pageOrder (i : IdHeap ν) (n : ν) (ir : IdRange) :
    (setIdr i n ir).pageOrder = i.pageOrder := rfl

@[simp] theorem setIdr_randomize (i : IdHeap ν) (n : ν) (ir : IdRange) :
    (setIdr i n ir).randomize = i.randomize := rfl

@[simp] theorem setIdr_idr_self (i : IdHeap ν) (n : ν) (ir : IdRange) :
    (setIdr i n ir).idr n = ir := by
  simp [setIdr]

theorem setIdr_idr_ne (i : IdHeap ν) {n x : ν} (ir : IdRange) (h : x ≠ n) :
    (setIdr i n ir).idr x = i.idr x := by
  simp [setIdr, h]

@[simp] theorem setIdr_self (i : IdHeap ν) (n : ν) : setIdr i n (i.idr n) = i := by
  simp [setIdr]

@[simp] theorem setNextBit_b (ir : IdRange) (k bit : ℕ) : (setNextBit ir k bit).b = ir.b := by
  unfold setNextBit
  split <;> rfl

@[simp] theorem setNextBit_bitmapStart (ir : IdRange) (k bit : ℕ) :
    (setNextBit ir k bit).bitmapStart = ir.bitmapStart := by
  unfold setNextBit
  split <;> rfl

theorem maxbits_bitmapAllocWithinRange (b : Bitmap) (nbits start end_ : ℕ) :
    (bitmapAllocWithinRange b nbits start end_).2.maxbits = b.maxbits := by
  rcases bitmapAllocInternal_spec b nbits start end_ with h | ⟨x, h, -⟩ <;>
    rw [bitmapAllocWithinRange, h]

theorem bitmapAllocWithinRange_of_none {b : Bitmap} {nbits start end_ : ℕ}
    (h : (bitmapAllocWithinRange b nbits start end_).1 = none) :
    bitmapAllocWithinRange b nbits start end_ = (none, b) := by
  rcases bitmapAllocInternal_spec b nbits start end_ with h' | ⟨x, h', -⟩
  · exact h'
  · rw [bitmapAllocWithinRange, h'] at h
    cases h

theorem maxbits_bitmapRangeCheckAndSet (b : Bitmap) (start nbits : ℕ) (validate set : Bool) :
    (bitmapRangeCheckAndSet b start nbits validate set).1.maxbits = b.maxbits := by
  unfold bitmapRangeCheckAndSet
  split_ifs <;> rfl

theorem maxbits_bitmapDealloc (b : Bitmap) (bit size : ℕ) :
    (bitmapDealloc b bit size).1.maxbits = b.maxbits := by
  unfold bitmapDealloc
  split_ifs <;> rfl

/-! ## Operations that keep the layout -/

/-- Two states of a heap with the same ranges and page size, whose bitmaps have the same starts
    and lengths. -/
structure SameLayout (i i' : IdHeap ν) : Prop where
  ranges : i'.ranges = i.ranges
  pagesize : i'.pagesize = i.pagesize
  pageOrder : i'.pageOrder = i.pageOrder
  parentPagesize : i'.parentPagesize = i.parentPagesize
  bitmapStart : ∀ n, (i'.idr n).bitmapStart = (i.idr n).bitmapStart
  maxbits : ∀ n, (i'.idr n).b.maxbits = (i.idr n).b.maxbits

omit [DecidableEq ν] in
@[refl] theorem SameLayout.refl (i : IdHeap ν) : SameLayout i i :=
  ⟨rfl, rfl, rfl, rfl, fun _ => rfl, fun _ => rfl⟩

omit [DecidableEq ν] in
theorem SameLayout.trans {i i' i'' : IdHeap ν} (h : SameLayout i i') (h' : SameLayout i' i'') :
    SameLayout i i'' :=
  ⟨h'.ranges.trans h.ranges, h'.pagesize.trans h.pagesize, h'.pageOrder.trans h.pageOrder,
    h'.parentPagesize.trans h.parentPagesize, fun n => (h'.bitmapStart n).trans (h.bitmapStart n),
    fun n => (h'.maxbits n).trans (h.maxbits n)⟩

theorem sameLayout_setIdr (i : IdHeap ν) {n : ν} {ir : IdRange}
    (hs : ir.bitmapStart = (i.idr n).bitmapStart) (hm : ir.b.maxbits = (i.idr n).b.maxbits) :
    SameLayout i (setIdr i n ir) := by
  refine ⟨rfl, rfl, rfl, rfl, fun x => ?_, fun x => ?_⟩ <;> by_cases hx : x = n
  · subst hx; simpa using hs
  · rw [setIdr_idr_ne _ _ hx]
  · subst hx; simpa using hm
  · rw [setIdr_idr_ne _ _ hx]

omit [DecidableEq ν] in
theorem sameLayout_allocated (i : IdHeap ν) (k : ℕ) : SameLayout i { i with allocated := k } :=
  ⟨rfl, rfl, rfl, rfl, fun _ => rfl, fun _ => rfl⟩

omit [DecidableEq ν] in
theorem sameLayout_setRandomize (i : IdHeap ν) (randomize : Bool) :
    SameLayout i (setRandomize i randomize) :=
  ⟨rfl, rfl, rfl, rfl, fun _ => rfl, fun _ => rfl⟩

theorem maxbits_wrapSearch (b : Bitmap) (pages start startBit end_ : ℕ) :
    (wrapSearch b pages start startBit end_).2.maxbits = b.maxbits := by
  unfold wrapSearch
  rcases bitmapAllocInternal_spec b pages startBit end_ with h | ⟨x, h, -⟩
  · rw [bitmapAllocWithinRange, h]
    dsimp only
    split
    · exact maxbits_bitmapAllocWithinRange _ _ _ _
    · rfl
  · rw [bitmapAllocWithinRange, h]

theorem wrapSearch_of_none {b : Bitmap} {pages start startBit end_ : ℕ}
    (h : (wrapSearch b pages start startBit end_).1 = none) :
    wrapSearch b pages start startBit end_ = (none, b) := by
  unfold wrapSearch at h ⊢
  rcases bitmapAllocInternal_spec b pages startBit end_ with h₁ | ⟨x, h₁, -⟩
  · rw [bitmapAllocWithinRange, h₁] at h ⊢
    dsimp only at h ⊢
    split at h
    · rw [if_pos ‹_›]
      exact bitmapAllocWithinRange_of_none h
    · rw [if_neg ‹_›]
  · rw [bitmapAllocWithinRange, h₁] at h
    cases h

theorem sameLayout_idAllocFromRange (i : IdHeap ν) (r : ν) (pages : ℕ) (subrange : Range)
    (rnd : ℕ) : SameLayout i (idAllocFromRange i r pages subrange rnd).2 := by
  unfold idAllocFromRange
  dsimp only
  split
  · rfl
  split
  · rfl
  split
  · next b hw =>
    have hm := congrArg (fun w => w.2.maxbits) hw
    simp only [maxbits_wrapSearch] at hm
    exact sameLayout_setIdr i rfl hm.symm
  · next bit b hw =>
    have hm := congrArg (fun w => w.2.maxbits) hw
    simp only [maxbits_wrapSearch] at hm
    exact (sameLayout_setIdr i (by simp) (by simpa using hm.symm)).trans
      (sameLayout_allocated _ _)

theorem idAllocFromRange_of_none {i : IdHeap ν} {r : ν} {pages : ℕ} {subrange : Range}
    {rnd : ℕ} (h : (idAllocFromRange i r pages subrange rnd).1 = none) :
    idAllocFromRange i r pages subrange rnd = (none, i) := by
  unfold idAllocFromRange at h ⊢
  dsimp only at h ⊢
  split
  · rfl
  split
  · rfl
  rw [if_neg ‹_›, if_neg ‹_›] at h
  split at h
  · next b hw =>
    -- the search failed, so its bitmap is the range's own
    have h1 := congrArg Prod.fst hw
    dsimp only at h1
    have h2 := wrapSearch_of_none h1
    rw [hw, Prod.mk.injEq] at h2
    rw [h2.2]
    exact congrArg (Prod.mk none) (setIdr_self i r)
  · cases h

theorem sameLayout_rangesLoop {pages : ℕ} {subrange : Range} {rnd : ν → ℕ} :
    ∀ (fuel : ℕ) (i : IdHeap ν) (r : Option ν) {a : Option ℕ} {i' : IdHeap ν},
      rangesLoop pages subrange rnd fuel i r = some (a, i') → SameLayout i i'
  | 0, _, _, _, _, h => by cases h
  | _ + 1, i, none, _, _, h => by
    cases h
    rfl
  | fuel + 1, i, some r, a, i', h => by
    have hr := sameLayout_idAllocFromRange i r pages subrange (rnd r)
    unfold rangesLoop at h
    split at h
    · next a'' i'' he =>
      cases h
      rwa [he] at hr
    · next i'' he =>
      rw [he] at hr
      obtain ⟨next, -, h⟩ := Option.bind_eq_some_iff.1 h
      exact hr.trans (sameLayout_rangesLoop fuel i'' next h)

theorem rangemapForeach_preserves {σ : Type} (s : RmState ν) (body : σ → ν → σ) (P : σ → Prop)
    (hbody : ∀ st n, P st → P (body st n)) :
    ∀ (fuel : ℕ) (st : σ) (n : Option ν) {st' : σ}, rangemapForeach s body fuel st n = some st' →
      P st → P st'
  | 0, _, _, _, h, _ => by cases h
  | _ + 1, st, none, _, h, hst => by
    cases h
    exact hst
  | fuel + 1, st, some n, st', h, hst => by
    obtain ⟨next, -, h⟩ := Option.bind_eq_some_iff.1 h
    exact rangemapForeach_preserves s body P hbody fuel _ next h (hbody st n hst)

theorem sameLayout_setNextRange (order next : ℕ) (i : IdHeap ν) (r : ν) :
    SameLayout i (setNextRange order next i r) := by
  unfold setNextRange
  split
  · exact sameLayout_setIdr i (by simp) (by simp)
  split
  · exact sameLayout_setIdr i (by simp) (by simp)
  · rfl

theorem sameLayout_setNext {i i' : IdHeap ν} {count next : ℕ} (h : setNext i count next = some i') :
    SameLayout i i' := by
  obtain ⟨first, -, h⟩ := Option.bind_eq_some_iff.1 h
  exact rangemapForeach_preserves _ _ (SameLayout i)
    (fun st n hst => hst.trans (sameLayout_setNextRange _ _ st n)) _ i first h (SameLayout.refl i)

theorem sameLayout_setIntersection (q : Range) (validate allocate : Bool) (i : IdHeap ν) (n : ν) :
    SameLayout i (setIntersection q validate allocate i n).1 :=
  sameLayout_setIdr i rfl (maxbits_bitmapRangeCheckAndSet _ _ _ _ _)

theorem sameLayout_setArea {i i' : IdHeap ν} {t : CTree ν} (h : WellFormed i.ranges t)
    {base length : ℕ} {validate allocate ok : Bool}
    (he : setArea i base length validate allocate = some (ok, i')) : SameLayout i i' := by
  unfold setArea at he
  obtain ⟨⟨i'', result⟩, hl, he⟩ := Option.bind_eq_some_iff.1 he
  have hi'' : SameLayout i i'' := lookupWithGaps_preserves h (SameLayout i)
    (fun st n hst => hst.trans (sameLayout_setIntersection _ _ _ st n)) (fun _ _ hst => hst) hl
    (SameLayout.refl i)
  dsimp only at he
  split at he
  · split at he
    · cases he
      exact hi''.trans (sameLayout_allocated _ _)
    · split at he
      · cases he
      · cases he
        exact hi''.trans (sameLayout_allocated _ _)
  · cases he
    exact hi''

theorem sameLayout_deallocFromRange (q : Range) (j : IdHeap ν) (n : ν) :
    ∀ j' ∈ (deallocFromRange q (some j) n).1, SameLayout j j' := by
  unfold deallocFromRange
  dsimp only
  split
  · intro j' hj'
    cases hj'
    rfl
  · next b hb =>
    have hm := congrArg (fun p => p.1.maxbits) hb
    simp only [maxbits_bitmapDealloc] at hm
    split
    · intro j' hj'
      cases hj'
    · intro j' hj'
      cases hj'
      refine (sameLayout_setIdr j ?_ ?_).trans (sameLayout_allocated _ _) <;> split <;> simp [hm]

theorem sameLayout_idDealloc {i i' : IdHeap ν} {t : CTree ν} (h : WellFormed i.ranges t)
    {a count : ℕ} (he : idDealloc i a count = some i') : SameLayout i i' := by
  unfold idDealloc at he
  split at he
  · cases he
    rfl
  split at he
  · cases he
    rfl
  obtain ⟨⟨st, result⟩, hl, he⟩ := Option.bind_eq_some_iff.1 he
  have hst : ∀ j ∈ st, SameLayout i j := lookupWithGaps_preserves h (fun st => ∀ j ∈ st, SameLayout i j)
    (fun st n hst => by
      cases st with
      | none => intro j hj; cases hj
      | some j₀ => exact fun j hj => (hst j₀ rfl).trans (sameLayout_deallocFromRange _ j₀ n j hj))
    (fun st _ hst => hst) hl (fun j hj => by cases hj; rfl)
  exact hst i' he

/-! ## The layout -/

/-- The layout of a heap whose range map holds the tree `t`: a well-formed map below
    `infinity`, each range with a bitmap that starts at or before it and ends with it, and a
    page order that is the `msb` of a page size that is not zero. -/
structure Inv (i : IdHeap ν) (t : CTree ν) : Prop where
  wf : WellFormed i.ranges t
  pagesize : i.pagesize ≠ 0
  pageOrder : i.pageOrder = msb i.pagesize
  bitmapStart : ∀ n ∈ t.toList, (i.idr n).bitmapStart ≤ (i.ranges.r n).start
  maxbits : ∀ n ∈ t.toList, (i.idr n).bitmapStart + (i.idr n).b.maxbits = (i.ranges.r n).end
  end_le : ∀ n ∈ t.toList, (i.ranges.r n).end ≤ infinity

omit [DecidableEq ν] in
theorem Inv.of_sameLayout {i i' : IdHeap ν} {t : CTree ν} (hi : Inv i t) (h : SameLayout i i') :
    Inv i' t := by
  refine ⟨h.ranges ▸ hi.wf, h.pagesize ▸ hi.pagesize, ?_, fun n hn => ?_, fun n hn => ?_,
    fun n hn => ?_⟩
  · rw [h.pageOrder, h.pagesize]
    exact hi.pageOrder
  · rw [h.bitmapStart, h.ranges]
    exact hi.bitmapStart n hn
  · rw [h.bitmapStart, h.maxbits, h.ranges]
    exact hi.maxbits n hn
  · rw [h.ranges]
    exact hi.end_le n hn

/-- The `id_range` that `allocate` returns is not a range of the heap. -/
def Fresh (i : IdHeap ν) (ir : Option ν) : Prop :=
  ∀ n ∈ ir, ∀ t : CTree ν, WellFormed i.ranges t → n ∉ t.toList

/-- What the rest of the kernel guarantees to an operation: a new `id_range` is fresh, and a
    new range, from the caller or from the parent heap, ends at or below `infinity`. -/
def Env (i : IdHeap ν) : Action ν → Prop
  | .addRange base length ir => Fresh i ir ∧ (length = infinity ∨ base + length ≤ infinity)
  | .alloc count _ base ir => Fresh i ir ∧
      ∀ pp ∈ i.parentPagesize, ∀ b ∈ base, b + ((count - 1) / pp + 1) * pp ≤ infinity
  | _ => True

omit [DecidableEq ν] in
theorem inv_allocateIdHeap {pagesize : ℕ} {R : RmState ν} {D : ν → IdRange} {i : IdHeap ν}
    (h : allocateIdHeap pagesize R D = some i) (hp : pagesize ≠ 0) : Inv i .nil := by
  unfold allocateIdHeap at h
  split at h
  · cases h
  · cases h
    refine ⟨⟨⟨by simp [initRbtree], by simp⟩, ⟨0, (LL_nil 0).2 rfl⟩, rfl, rfl, by simp,
      by simp [Chain]⟩, hp, rfl, by simp, by simp, by simp⟩

theorem add_length_le {base length k p : ℕ} (hb : length = infinity ∨ base + length ≤ infinity)
    (hp : p ≠ 0)
    (hL : (if length = infinity then (infinity - base) / 2 ^ (k + 6) * 2 ^ (k + 6) else length) ≥ p) :
    base + (if length = infinity then (infinity - base) / 2 ^ (k + 6) * 2 ^ (k + 6) else length) ≤
      infinity := by
  by_cases hinf : length = infinity
  · -- unlimited: what is left above `base`, rounded down
    rw [if_pos hinf] at hL ⊢
    have := Nat.div_mul_le_self (infinity - base) (2 ^ (k + 6))
    omega
  · rw [if_neg hinf]
    exact hb.resolve_left hinf

theorem one_le_pages {L p : ℕ} (hp : p ≠ 0) (hL : L ≥ p) : 1 ≤ L / 2 ^ msb p := by
  have h2 : 2 ^ msb p ≤ p := by
    rw [msb, if_neg hp]
    exact Nat.log2_self_le hp
  exact (Nat.le_div_iff_mul_le (Nat.two_pow_pos _)).2 (by omega)

theorem maxbits_newBitmap (pages m : ℕ) :
    (if m ≠ 0 then (bitmapRangeCheckAndSet (allocateBitmap (pages + m)) 0 m false true).1
      else allocateBitmap (pages + m)).maxbits = pages + m := by
  split
  · rw [maxbits_bitmapRangeCheckAndSet]
    rfl
  · rfl

/-- `id_add_range` adds a range with its bitmap, or leaves the ranges as they were. -/
theorem inv_idAddRange {i i' : IdHeap ν} {t : CTree ν} {base length : ℕ} {ir r : Option ν}
    (hi : Inv i t) (hf : Fresh i ir) (hb : length = infinity ∨ base + length ≤ infinity)
    (h : idAddRange i base length ir = some (i', r)) : ∃ t', Inv i' t' := by
  unfold idAddRange idAddRangeWith at h
  dsimp only at h
  generalize hL : (if length = infinity then
    (infinity - base) / 2 ^ (i.pageOrder + 6) * 2 ^ (i.pageOrder + 6) else length) = L at h
  split at h
  · cases h
  next hassert =>
  have hLp : L ≥ i.pagesize := (not_not.1 hassert).1
  have hend : base / 2 ^ i.pageOrder + L / 2 ^ i.pageOrder ≤ infinity := by
    have := add_length_le hb hi.pagesize (hL ▸ hLp)
    rw [hL] at this
    calc base / 2 ^ i.pageOrder + L / 2 ^ i.pageOrder
        ≤ (base + L) / 2 ^ i.pageOrder := Nat.div_add_div_le_add_div
      _ ≤ base + L := Nat.div_le_self _ _
      _ ≤ infinity := this
  have hpages : 1 ≤ L / 2 ^ i.pageOrder := hi.pageOrder ▸ one_le_pages hi.pagesize hLp
  cases ir with
  | none =>
    cases h
    exact ⟨t, hi⟩
  | some n =>
  have hn : n ∉ t.toList := hf n rfl t hi.wf
  generalize hv : (⟨base / 2 ^ i.pageOrder, base / 2 ^ i.pageOrder + L / 2 ^ i.pageOrder⟩ : Range) = v
    at h
  have hwf : WellFormed (i.ranges.setR n v) t := wellFormed_of_agree hi.wf rfl
    fun x hx => ⟨rfl, RmState.setR_r_ne _ _ (ne_of_mem_of_not_mem hx hn)⟩
  obtain ⟨s', ok, hins, -, htrue, hfalse⟩ := insert_eq hwf hn (by
    simp only [RmState.start, RmState.end, RmState.setR_r_self, ← hv]
    omega)
  dsimp only at h
  rw [hins] at h
  have hrn : ∀ x ∈ t.toList, (i.ranges.setR n v).r x = i.ranges.r x := fun x hx =>
    RmState.setR_r_ne _ _ (ne_of_mem_of_not_mem hx hn)
  cases ok with
  | false =>
    -- the range overlaps one of the heap's: the ranges stay, with the node's record reset
    simp only [Option.bind_eq_bind, Option.bind_some, Bool.not_false, if_true, Option.pure_def,
      Option.some.injEq, Prod.mk.injEq] at h
    obtain ⟨rfl, -⟩ := h
    refine ⟨t, ⟨?_, hi.pagesize, hi.pageOrder, fun x hx => ?_, fun x hx => ?_, fun x hx => ?_⟩⟩
    · rw [hfalse rfl]
      exact wellFormed_setR_init hi.wf hn v
    all_goals dsimp only
    all_goals rw [hfalse rfl]
    all_goals dsimp only
    · rw [hrn x hx]
      exact hi.bitmapStart x hx
    · rw [hrn x hx]
      exact hi.maxbits x hx
    · rw [hrn x hx]
      exact hi.end_le x hx
  | true =>
    obtain ⟨t', hwf', hr', hmem⟩ := htrue rfl
    simp only [Option.bind_eq_bind, Option.bind_some, Bool.not_true, Bool.false_eq_true, if_false,
      Option.pure_def, Option.some.injEq, Prod.mk.injEq] at h
    obtain ⟨rfl, -⟩ := h
    refine ⟨t', ⟨hwf', hi.pagesize, hi.pageOrder, fun x hx => ?_, fun x hx => ?_, fun x hx => ?_⟩⟩
    all_goals dsimp only
    all_goals rw [hr']
    all_goals rcases (hmem x).1 hx with rfl | hx
    -- the new range, whose bitmap starts at the word of its first page
    · rw [RmState.setR_r_self, Function.update_self, ← hv]
      exact Nat.sub_le _ _
    · rw [Function.update_of_ne (ne_of_mem_of_not_mem hx hn), hrn x hx]
      exact hi.bitmapStart x hx
    · rw [RmState.setR_r_self, Function.update_self, ← hv, maxbits_newBitmap]
      have := Nat.mod_le (base / 2 ^ i.pageOrder) 64
      dsimp only
      omega
    · rw [Function.update_of_ne (ne_of_mem_of_not_mem hx hn), hrn x hx]
      exact hi.maxbits x hx
    · rw [RmState.setR_r_self, ← hv]
      exact hend
    · rw [hrn x hx]
      exact hi.end_le x hx

/-- When `allocate_bitmap` fails for a range that went into the map, `id_add_range` frees its
    `id_range` and returns `INVALID_ADDRESS`, yet the node stays in the range map with its
    `id_range` never set up: the map holds freed memory. -/
theorem idAddRangeWith_bitmap_fail {i : IdHeap ν} {t : CTree ν} {base length : ℕ} {n : ν}
    (hi : Inv i t) (hn : n ∉ t.toList) (hlen : length ≠ infinity)
    (hL : length ≥ i.pagesize ∧ base % i.pagesize = 0 ∧ length % i.pagesize = 0)
    (hdis : ∀ y ∈ t.toList, Disjoint
      (Set.Ico (base / 2 ^ i.pageOrder) (base / 2 ^ i.pageOrder + length / 2 ^ i.pageOrder))
      (Set.Ico (i.ranges.start y) (i.ranges.end y))) :
    ∃ i' t', idAddRangeWith i base length (some n) false = some (i', none) ∧
      WellFormed i'.ranges t' ∧ n ∈ t'.toList ∧ i'.idr = i.idr ∧ i'.total = i.total := by
  set v : Range := ⟨base / 2 ^ i.pageOrder, base / 2 ^ i.pageOrder + length / 2 ^ i.pageOrder⟩
    with hv
  have hpages : 1 ≤ length / 2 ^ i.pageOrder := hi.pageOrder ▸ one_le_pages hi.pagesize hL.1
  have hrn : ∀ x ∈ t.toList, (i.ranges.setR n v).r x = i.ranges.r x := fun x hx =>
    RmState.setR_r_ne _ _ (ne_of_mem_of_not_mem hx hn)
  have hwf : WellFormed (i.ranges.setR n v) t :=
    wellFormed_of_agree hi.wf rfl fun x hx => ⟨rfl, hrn x hx⟩
  obtain ⟨s', ok, hins, hiff, htrue, -⟩ := insert_eq hwf hn (by
    simp only [RmState.start, RmState.end, RmState.setR_r_self, hv]
    omega)
  -- the range meets none of the heap's, so it goes into the map
  have hok : ok = true := hiff.2 fun y hy => by
    rw [RmState.start, RmState.end, RmState.start, RmState.end, RmState.setR_r_self, hrn y hy]
    exact hdis y hy
  subst hok
  obtain ⟨t', hwf', -, hmem⟩ := htrue rfl
  refine ⟨{ i with ranges := s' }, t', ?_, hwf', (hmem n).2 (.inl rfl), rfl, rfl⟩
  unfold idAddRangeWith
  simp only [hlen, if_false, not_not.2 hL, ← hv, hins]
  rfl

theorem sameLayout_allocSubrange {i i' : IdHeap ν} {count start end_ : ℕ} {rnd : ν → ℕ}
    {a : Option ℕ} (h : allocSubrange i count start end_ rnd = some (a, i')) : SameLayout i i' := by
  unfold allocSubrange at h
  dsimp only at h
  generalize (if end_ = infinity then infinity else end_ / 2 ^ i.pageOrder) = e at h
  split at h
  · cases h
    rfl
  split at h
  · cases h
    rfl
  obtain ⟨first, -, h⟩ := Option.bind_eq_some_iff.1 h
  exact sameLayout_rangesLoop _ i first h

/-- `id_alloc` takes an id from a range, or adds a range from the parent heap first. -/
theorem inv_idAlloc {i i' : IdHeap ν} {t : CTree ν} {count : ℕ} {rnd : ν → ℕ} {base : Option ℕ}
    {ir : Option ν} {a : Option ℕ} (hi : Inv i t) (hf : Fresh i ir)
    (hb : ∀ pp ∈ i.parentPagesize, ∀ b ∈ base, b + ((count - 1) / pp + 1) * pp ≤ infinity)
    (h : idAlloc i count rnd base ir = some (a, i')) : ∃ t', Inv i' t' := by
  unfold idAlloc at h
  by_cases hc : count = 0
  · rw [if_pos hc] at h
    cases h
    exact ⟨t, hi⟩
  rw [if_neg hc] at h
  obtain ⟨first, -, h⟩ := Option.bind_eq_some_iff.1 h
  obtain ⟨⟨a₁, i₁⟩, hloop, h⟩ := Option.bind_eq_some_iff.1 h
  have h₁ := sameLayout_rangesLoop _ i first hloop
  have hi₁ := hi.of_sameLayout h₁
  dsimp only at h
  split at h
  · cases h
    exact ⟨t, hi₁⟩
  · cases h
    exact ⟨t, hi₁⟩
  · next pp hpp =>
    -- a range from the parent heap, which the loop has not changed
    obtain ⟨⟨i₂, r⟩, hget, h⟩ := Option.bind_eq_some_iff.1 h
    have hf₁ : Fresh i₁ ir := fun n hn t' ht' => hf n hn t' (h₁.ranges ▸ ht')
    obtain ⟨t₂, hi₂⟩ : ∃ t₂, Inv i₂ t₂ := by
      unfold idGetBackedPage at hget
      cases base with
      | none =>
        cases hget
        exact ⟨t, hi₁⟩
      | some b =>
        exact inv_idAddRange hi₁ hf₁ (.inr (hb pp (h₁.parentPagesize ▸ hpp) b rfl)) hget
    dsimp only at h
    split at h
    · cases h
      exact ⟨t₂, hi₂⟩
    · next r =>
      have hr := sameLayout_idAllocFromRange i₂ r (pagesFromBytes i count) wholeRange (rnd r)
      rw [Option.pure_def, Option.some.injEq] at h
      rw [h] at hr
      exact ⟨t₂, hi₂.of_sameLayout hr⟩

theorem step_inv {i i' : IdHeap ν} {t : CTree ν} {a : Action ν} (hi : Inv i t) (henv : Env i a)
    (h : step i a = some i') : ∃ t', Inv i' t' := by
  cases a <;> simp only [step] at h
  case addRange base length ir =>
    obtain ⟨⟨i'', r⟩, he, rfl⟩ := Option.map_eq_some_iff.1 h
    exact inv_idAddRange hi henv.1 henv.2 he
  case alloc count rnd base ir =>
    obtain ⟨⟨a, i''⟩, he, rfl⟩ := Option.map_eq_some_iff.1 h
    exact inv_idAlloc hi henv.1 henv.2 he
  case dealloc a count => exact ⟨t, hi.of_sameLayout (sameLayout_idDealloc hi.wf h)⟩
  case setArea base length validate allocate =>
    obtain ⟨⟨ok, i''⟩, he, rfl⟩ := Option.map_eq_some_iff.1 h
    exact ⟨t, hi.of_sameLayout (sameLayout_setArea hi.wf he)⟩
  case setRandomize randomize =>
    cases h
    exact ⟨t, hi.of_sameLayout (sameLayout_setRandomize i randomize)⟩
  case allocSubrange count start end_ rnd =>
    obtain ⟨⟨a, i''⟩, he, rfl⟩ := Option.map_eq_some_iff.1 h
    exact ⟨t, hi.of_sameLayout (sameLayout_allocSubrange he)⟩
  case setNext count next => exact ⟨t, hi.of_sameLayout (sameLayout_setNext h)⟩

/-- The layout holds in every state that operations reach from a heap just allocated, with a page
    size that is not zero. -/
theorem reachable_inv {pagesize : ℕ} {R : RmState ν} {D : ν → IdRange} {i₀ i : IdHeap ν}
    (h₀ : allocateIdHeap pagesize R D = some i₀) (hp : pagesize ≠ 0)
    (h : Reachable step Env i₀ i) : ∃ t, Inv i t :=
  Reachable.invariant (fun i => ∃ t, Inv i t) ⟨.nil, inv_allocateIdHeap h₀ hp⟩
    (fun _ _ _ ⟨_, hi⟩ henv hs => step_inv hi henv hs) h

/-! ## Creating a heap -/

omit [DecidableEq ν] in
theorem fresh_allocateIdHeap {pagesize : ℕ} {R : RmState ν} {D : ν → IdRange} {i : IdHeap ν}
    (h : allocateIdHeap pagesize R D = some i) (ir : Option ν) : Fresh i ir := by
  unfold allocateIdHeap at h
  split_ifs at h
  cases h
  intro n _ t ht
  have hnil := (rep_none_iff ht.holds.1).1 rfl
  simp [hnil]

theorem idAddRange_parentPagesize {i i' : IdHeap ν} {base length : ℕ} {ir r : Option ν}
    (h : idAddRange i base length ir = some (i', r)) : i'.parentPagesize = i.parentPagesize := by
  unfold idAddRange idAddRangeWith at h
  dsimp only at h
  generalize (if length = infinity then
    (infinity - base) / 2 ^ (i.pageOrder + 6) * 2 ^ (i.pageOrder + 6) else length) = L at h
  split at h
  · cases h
  cases ir with
  | none =>
    cases h
    rfl
  | some n =>
    -- every branch after the insertion keeps the fields other than the ranges, the total and
    -- the id ranges
    obtain ⟨⟨s, ok⟩, -, h⟩ := Option.bind_eq_some_iff.1 h
    cases ok <;> simp only [Bool.not_false, Bool.not_true, Bool.false_eq_true, if_true, if_false,
      Option.pure_def, Option.some.injEq, Prod.mk.injEq] at h <;> rw [← h.1]

/-- A heap that `create_id_heap_backed` returns has its parent's page size and keeps the layout,
    so every run from it keeps the layout as well. -/
theorem inv_createIdHeapBacked {pagesize pp : ℕ} {R : RmState ν} {D : ν → IdRange}
    {base : Option ℕ} {ir : Option ν} {i : IdHeap ν} (hp : pagesize ≠ 0)
    (hb : ∀ b ∈ base, b + pp ≤ infinity)
    (h : createIdHeapBacked pagesize pp R D base ir = some (some i)) :
    i.parentPagesize = some pp ∧ ∃ t, Inv i t := by
  unfold createIdHeapBacked at h
  obtain ⟨i₀, h₀, h⟩ := Option.bind_eq_some_iff.1 h
  obtain ⟨⟨i₁, r⟩, hget, h⟩ := Option.bind_eq_some_iff.1 h
  have hi₀ := inv_allocateIdHeap h₀ hp
  -- setting the parent leaves the layout
  have hi₀' : Inv { i₀ with parentPagesize := some pp } .nil :=
    ⟨hi₀.wf, hi₀.pagesize, hi₀.pageOrder, hi₀.bitmapStart, hi₀.maxbits, hi₀.end_le⟩
  unfold idGetBackedPage at hget
  cases base with
  | none =>
    cases hget
    simp at h
  | some b =>
    -- one page of the parent: `count = 1`
    cases r with
    | none => simp at h
    | some n =>
      simp only [Option.map_some, Option.pure_def, Option.some.injEq] at h
      subst h
      refine ⟨idAddRange_parentPagesize hget, inv_idAddRange hi₀' (fresh_allocateIdHeap h₀ ir)
        (.inr ?_) hget⟩
      simpa using hb b rfl

end Nanos.Id
