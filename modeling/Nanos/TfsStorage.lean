import Nanos.RangemapLookup

set_option autoImplicit false

/-!
# `fs/tfs.c`: the storage blocks of a filesystem

`fs->storage` is a range map of the blocks that hold data. `filesystem_allocate_storage` takes
the first gap of at least `nblocks` blocks inside the filesystem, `filesystem_reserve_storage` a
range that meets no node, and `filesystem_free_storage` gives a range back with
`rangemap_insert_hole`. The node that a call allocates is an argument, `none` for
`INVALID_ADDRESS`.

On a well-formed map the allocation is first fit (`allocateStorage_spec`); when its node
allocation fails, a gap no node borders cannot be taken (`allocateStorage_out_of_nodes`). An empty
range meets no node, so reserving it succeeds with the node allocation (`reserveStorage_empty`).
-/

namespace Nanos.TfsStorage
open ColorTree CTree Rbtree Rangemap Intervals RangemapMerge RangemapInsert RangemapLookup

variable {ν : Type} [DecidableEq ν]

/-- The fields of a tfs filesystem that the storage functions read: `fs->storage`, null or a
    range map, the size in bytes `fs->fs.size`, and `fs->fs.blocksize_order`. -/
structure Tfs (ν : Type) where
  storage : Option (RmState ν)
  size : ℕ
  blocksizeOrder : ℕ

def sizeBlocks (fs : Tfs ν) : ℕ := fs.size >>> fs.blocksizeOrder

/-- The closure `tfs_storage_alloc(nblocks, &start_block)`, a gap handler whose state is
    `start_block`: on a gap of at least `nblocks` blocks it stores the start and aborts. -/
def tfsStorageAlloc (nblocks : ℕ) (startBlock : ℕ) (r : Range) : ℕ × Bool :=
  if rangeSpan r ≥ nblocks then (r.start, false) else (startBlock, true)

/-- `filesystem_allocate_storage(fs, nblocks)`, with `fresh` the node that the `allocate` of
    `rangemap_insert_range` returns; `none` for `INVALID_PHYSICAL`. The local `start_block` is
    read only after the handler has set it; here it starts at 0. -/
def filesystemAllocateStorage (fs : Tfs ν) (nblocks : ℕ) (fresh : Option ν) :
    Option (Tfs ν × Option ℕ) :=
  match fs.storage with
  | none => some (fs, none)
  | some s => do
    let (startBlock, result) ←
      rangemapRangeFindGaps s ⟨0, sizeBlocks fs⟩ (tfsStorageAlloc nblocks) 0
    -- `(result == RM_ABORT) && rangemap_insert_range(...)`
    if result = .abort then do
      let (s, success) ← rangemapInsertRange s ⟨startBlock, startBlock + nblocks⟩ fresh
      pure ({ fs with storage := some s }, if success then some startBlock else none)
    else pure (fs, none)

/-- `filesystem_reserve_storage(fs, blocks)`, with `fresh` as in
    `filesystemAllocateStorage`. -/
def filesystemReserveStorage (fs : Tfs ν) (blocks : Range) (fresh : Option ν) :
    Option (Tfs ν × Bool) :=
  match fs.storage with
  | none => some (fs, true)
  | some s => do
    let i ← rangemapRangeIntersects s blocks
    if i then pure (fs, false)
    else do
      let (s, success) ← rangemapInsertRange s blocks fresh
      pure ({ fs with storage := some s }, success)

/-- `filesystem_free_storage(fs, blocks)`, with `fresh` the node that the `allocate` of
    `rangemap_insert_hole` returns. -/
def filesystemFreeStorage (fs : Tfs ν) (blocks : Range) (fresh : Option ν) :
    Option (Tfs ν × Bool) :=
  match fs.storage with
  | none => some (fs, true)
  | some s => do
    let (s, success) ← rangemapInsertHole s blocks fresh
    pure ({ fs with storage := some s }, success)

omit [DecidableEq ν] in
theorem storage_eta {fs : Tfs ν} {s : RmState ν} (hs : fs.storage = some s) :
    { fs with storage := some s } = fs := by
  cases fs
  cases hs
  rfl

/-! ## The walk over the gaps -/

section walk
variable {s : RmState ν} {t : CTree ν}

omit [DecidableEq ν] in
theorem find?_handled_gaps (V : List (Visit ν)) (lo hi : Visit ν → ℕ) (nblocks : ℕ)
    (gh : ℕ → Range → ℕ × Bool) :
    (V.filter (Visit.handled none (some gh))).find? (bigGap lo hi Visit.isGap nblocks) =
      V.find? (bigGap lo hi Visit.isGap nblocks) := by
  rw [List.find?_filter]
  congr 1
  funext v
  cases v <;> simp [Visit.handled, bigGap, Visit.isGap]

omit [DecidableEq ν] in
theorem apply_tfsStorageAlloc (R : ν → Range) (q : Range) (nblocks st : ℕ) (v : Visit ν) :
    Visit.apply none (some (tfsStorageAlloc nblocks)) st v =
      if bigGap (fun v => (Visit.piece R q v).start) (fun v => (Visit.piece R q v).end)
          Visit.isGap nblocks v then ((Visit.piece R q v).start, false) else (st, true) := by
  cases v with
  | node n => simp [Visit.apply, bigGap, Visit.isGap]
  | gap r =>
    by_cases hle : nblocks ≤ r.end - r.start <;>
      simp [Visit.apply, tfsStorageAlloc, bigGap, Visit.isGap, Visit.piece, rangeSpan, hle]

/-- `rangemap_range_find_gaps` with the handler of `filesystem_allocate_storage`, on a
    well-formed map: `RM_ABORT` with the start of the first visit that is a gap of at least
    `nblocks` blocks, and a result other than `RM_ABORT` when there is none. -/
theorem findGaps_tfsStorageAlloc (h : WellFormed s t) (q : Range) (nblocks st : ℕ) :
    ∃ res, rangemapRangeFindGaps s q (tfsStorageAlloc nblocks) st =
        some (match (visits s.r q (t.toList.filter (meets s.r q))).find?
            (bigGap (fun v => (Visit.piece s.r q v).start) (fun v => (Visit.piece s.r q v).end)
              Visit.isGap nblocks) with
          | some v => ((Visit.piece s.r q v).start, .abort)
          | none => (st, res)) ∧ res ≠ .abort := by
  rw [rangemapRangeFindGaps, rangeLookupInternal_eq h, outcome,
    runVisits_of_stop _ _ (apply_tfsStorageAlloc s.r q nblocks), find?_handled_gaps]
  cases (visits s.r q (t.toList.filter (meets s.r q))).find?
    (bigGap (fun v => (Visit.piece s.r q v).start) (fun v => (Visit.piece s.r q v).end)
      Visit.isGap nblocks) with
  | none =>
    refine ⟨_, rfl, ?_⟩
    dsimp only
    by_cases hW : ((visits s.r q (t.toList.filter (meets s.r q))).filter
      (Visit.handled none (some (tfsStorageAlloc nblocks)))).isEmpty <;> simp [hW]
  | some v => exact ⟨.noMatch, rfl, by simp⟩

end walk

/-! ## The three calls on a well-formed map -/

section calls
variable {fs : Tfs ν} {s : RmState ν} {t : CTree ν}

/-- `filesystem_allocate_storage(fs, nblocks)` on a well-formed storage map, where the node
    allocation `fresh` gives a node outside the map or fails. A block it returns is the least
    one from which `nblocks` blocks fit inside the filesystem and outside the map, and those
    blocks join the map; when the node allocation succeeds it returns `INVALID_PHYSICAL` only
    when the blocks fit nowhere. On `INVALID_PHYSICAL` the map is unchanged. -/
theorem allocateStorage_spec (hs : fs.storage = some s) (h : WellFormed s t) {nblocks : ℕ}
    (hn : 0 < nblocks) {fresh : Option ν} (hfresh : ∀ n ∈ fresh, n ∉ t.toList) :
    ∃ fs' a, filesystemAllocateStorage fs nblocks fresh = some (fs', a) ∧
      (fresh ≠ none → (a = none ↔ ∀ x, ¬Fits (covered s t) 0 (sizeBlocks fs) nblocks x)) ∧
      (∀ x, a = some x → IsLeast {y | Fits (covered s t) 0 (sizeBlocks fs) nblocks y} x ∧
        ∃ s' t', fs'.storage = some s' ∧ WellFormed s' t' ∧
          covered s' t' = covered s t ∪ Set.Ico x (x + nblocks)) ∧
      (a = none → fs' = fs) := by
  -- the visits of the walk tile `[0, size)` into parts of nodes and maximal gaps
  have hT := gapTiling_visits h ⟨0, sizeBlocks fs⟩
  rw [show max (0 : ℕ) (sizeBlocks fs) = sizeBlocks fs from max_eq_right (Nat.zero_le _)] at hT
  obtain ⟨res, e, hres⟩ := findGaps_tfsStorageAlloc h ⟨0, sizeBlocks fs⟩ nblocks 0
  unfold filesystemAllocateStorage
  simp only [hs, e, Option.bind_eq_bind, Option.bind_some]
  cases hf : (visits s.r ⟨0, sizeBlocks fs⟩ (t.toList.filter (meets s.r ⟨0, sizeBlocks fs⟩))).find?
    (bigGap (fun v => (Visit.piece s.r ⟨0, sizeBlocks fs⟩ v).start)
      (fun v => (Visit.piece s.r ⟨0, sizeBlocks fs⟩ v).end) Visit.isGap nblocks) with
  | none =>
    -- no gap is big enough: `INVALID_PHYSICAL`, and nothing fits
    have hno := hT.not_fits_of_find hn hf
    exact ⟨fs, none, by simp [hres], fun _ => iff_of_true rfl hno, by simp, fun _ => rfl⟩
  | some v =>
    -- the first big gap starts at the least block where the blocks fit
    have hleast := hT.isLeast_of_find hn hf
    obtain ⟨s', b, e', htrue, hfalse⟩ := insertRange_spec
      (r := ⟨(Visit.piece s.r ⟨0, sizeBlocks fs⟩ v).start,
        (Visit.piece s.r ⟨0, sizeBlocks fs⟩ v).start + nblocks⟩) h (by dsimp only; omega) hfresh
    simp only [if_pos, e', Option.bind_some]
    cases b with
    | false =>
      -- the node allocation failed: the map is as it was
      obtain ⟨hnone, rfl⟩ := hfalse rfl
      exact ⟨fs, none, by simp [storage_eta hs], fun hne => absurd hnone hne, by simp,
        fun _ => rfl⟩
    | true =>
      obtain ⟨t', hwf, hcov, -⟩ := htrue rfl
      refine ⟨{ fs with storage := some s' }, some _, rfl,
        fun _ => iff_of_false (by simp) fun hno => hno _ hleast.1, ?_, by simp⟩
      rintro x ⟨⟩
      exact ⟨hleast, s', t', rfl, hwf, hcov⟩

/-- `filesystem_reserve_storage(fs, blocks)` on a well-formed storage map and a non-empty
    range: when the node allocation succeeds it succeeds exactly when no block of the range is
    in the map. On success the map is well formed and holds the range besides; on failure it
    is unchanged. -/
theorem reserveStorage_spec (hs : fs.storage = some s) (h : WellFormed s t) {r : Range}
    (hr : r.start < r.end) {fresh : Option ν} (hfresh : ∀ n ∈ fresh, n ∉ t.toList) :
    ∃ fs' b, filesystemReserveStorage fs r fresh = some (fs', b) ∧
      (fresh ≠ none → (b = true ↔ Disjoint (Set.Ico r.start r.end) (covered s t))) ∧
      (b = true → ∃ s' t', fs'.storage = some s' ∧ WellFormed s' t' ∧
        covered s' t' = covered s t ∪ Set.Ico r.start r.end) ∧
      (b = false → fs' = fs) := by
  obtain ⟨i, ei, hi⟩ := rangeIntersects_spec h r
  unfold filesystemReserveStorage
  simp only [hs, ei, Option.bind_eq_bind, Option.bind_some]
  cases i with
  | true =>
    -- the range meets the map
    exact ⟨fs, false, rfl, fun _ => iff_of_false (by simp) (hi.1 rfl), by simp, fun _ => rfl⟩
  | false =>
    have hd : Disjoint (Set.Ico r.start r.end) (covered s t) :=
      not_not.1 fun hnd => absurd (hi.2 hnd) (by simp)
    obtain ⟨s', b, e', htrue, hfalse⟩ := insertRange_spec h hr hfresh
    simp only [Bool.false_eq_true, if_false, e', Option.bind_some]
    refine ⟨{ fs with storage := some s' }, b, rfl, fun hne => ?_, fun hb => ?_, fun hb => ?_⟩
    · cases b with
      | false => exact absurd (hfalse rfl).1 hne
      | true => exact iff_of_true rfl hd
    · obtain ⟨t', hwf, hcov, -⟩ := htrue hb
      exact ⟨s', t', rfl, hwf, hcov⟩
    · obtain ⟨-, rfl⟩ := hfalse hb
      exact storage_eta hs

/-- `filesystem_reserve_storage(fs, blocks)` on a well-formed storage map and an empty range
    `[a, a)`: no node meets it, so the call succeeds when its node allocation does, or when a
    node takes the range in. On success the map covers what it covered before and may hold one
    empty range, the fresh node's; on failure it is unchanged. -/
theorem reserveStorage_empty (hs : fs.storage = some s) (h : WellFormed s t) {r : Range}
    (hr : r.start = r.end) {fresh : Option ν} (hfresh : ∀ n ∈ fresh, n ∉ t.toList) :
    ∃ fs' b, filesystemReserveStorage fs r fresh = some (fs', b) ∧ (fresh ≠ none → b = true) ∧
      (b = true → ∃ s' t', fs'.storage = some s' ∧ TreeOk s' t' ∧ Chain s'.start s'.end t'.toList ∧
        (∀ x ∈ t'.toList, s'.start x < s'.end x ∨ (x ∈ fresh ∧ s'.start x = s'.end x)) ∧
        covered s' t' = covered s t) ∧
      (b = false → fs' = fs) := by
  obtain ⟨i, ei, hi⟩ := rangeIntersects_spec h r
  -- an empty range meets nothing
  have hi' : i = false := by
    rw [← Bool.not_eq_true, hi, hr, Set.Ico_self, not_not]
    exact Set.empty_disjoint _
  obtain ⟨s', b, e', htrue, hfalse⟩ := insertRange_empty h hr hfresh
  unfold filesystemReserveStorage
  simp only [hs, ei, hi', Option.bind_eq_bind, Option.bind_some, Bool.false_eq_true, if_false, e']
  refine ⟨{ fs with storage := some s' }, b, rfl, fun hne => ?_, fun hb => ?_, fun hb => ?_⟩
  · cases b with
    | false => exact absurd (hfalse rfl).1 hne
    | true => rfl
  · obtain ⟨t', hok, hch, hne, hcov⟩ := htrue hb
    exact ⟨s', t', rfl, hok, hch, hne, hcov⟩
  · obtain ⟨-, rfl⟩ := hfalse hb
    exact storage_eta hs

/-- `filesystem_free_storage(fs, blocks)` on a well-formed storage map: when the node
    allocation succeeds it succeeds exactly when the range is not empty and lies inside the
    range of one node. On success the map is well formed and holds what it held less the
    range; on failure it is unchanged. -/
theorem freeStorage_spec (hs : fs.storage = some s) (h : WellFormed s t) (r : Range)
    {fresh : Option ν} (hfresh : ∀ n ∈ fresh, n ∉ t.toList) :
    ∃ fs' b, filesystemFreeStorage fs r fresh = some (fs', b) ∧
      (fresh ≠ none → (b = true ↔
        r.start < r.end ∧ ∃ x ∈ t.toList, s.start x ≤ r.start ∧ r.end ≤ s.end x)) ∧
      (b = true → ∃ s' t', fs'.storage = some s' ∧ WellFormed s' t' ∧
        covered s' t' = covered s t \ Set.Ico r.start r.end) ∧
      (b = false → fs' = fs) := by
  obtain ⟨s', b, e, hiff, htrue, hfalse⟩ := insertHole_spec (r := r) h hfresh
  unfold filesystemFreeStorage
  simp only [hs, e, Option.bind_eq_bind, Option.bind_some]
  refine ⟨{ fs with storage := some s' }, b, rfl, hiff, fun hb => ?_, fun hb => ?_⟩
  · obtain ⟨t', hwf, hcov⟩ := htrue hb
    exact ⟨s', t', rfl, hwf, hcov⟩
  · rw [hfalse hb]
    exact storage_eta hs

end calls


/-! ## The storage calls together -/

/-- The storage calls on a well-formed map, with the node that a call allocates outside the
    map or `INVALID_ADDRESS`. `filesystem_allocate_storage` is first fit over the blocks of
    the filesystem; `filesystem_reserve_storage` takes a non-empty range that meets no node and
    `filesystem_free_storage` gives back a non-empty range inside one node. Each changes the
    covered blocks by exactly its range when it succeeds and leaves the map unchanged when it
    fails, and fails where it should not only when its node allocation fails. An empty range
    is reserved whenever its node allocation succeeds; the covered blocks stay as they were, and
    the map may be left with one empty node. -/
theorem filesystem_storage_spec {fs : Tfs ν} {s : RmState ν} {t : CTree ν}
    (hs : fs.storage = some s) (h : WellFormed s t) {fresh : Option ν}
    (hfresh : ∀ n ∈ fresh, n ∉ t.toList) :
    (∀ nblocks, 0 < nblocks →
      ∃ fs' a, filesystemAllocateStorage fs nblocks fresh = some (fs', a) ∧
        (fresh ≠ none → (a = none ↔ ∀ x, ¬Fits (covered s t) 0 (sizeBlocks fs) nblocks x)) ∧
        (∀ x, a = some x → IsLeast {y | Fits (covered s t) 0 (sizeBlocks fs) nblocks y} x ∧
          ∃ s' t', fs'.storage = some s' ∧ WellFormed s' t' ∧
            covered s' t' = covered s t ∪ Set.Ico x (x + nblocks)) ∧
        (a = none → fs' = fs)) ∧
    (∀ r : Range, r.start < r.end →
      ∃ fs' b, filesystemReserveStorage fs r fresh = some (fs', b) ∧
        (fresh ≠ none → (b = true ↔ Disjoint (Set.Ico r.start r.end) (covered s t))) ∧
        (b = true → ∃ s' t', fs'.storage = some s' ∧ WellFormed s' t' ∧
          covered s' t' = covered s t ∪ Set.Ico r.start r.end) ∧
        (b = false → fs' = fs)) ∧
    (∀ r : Range, r.start = r.end →
      ∃ fs' b, filesystemReserveStorage fs r fresh = some (fs', b) ∧ (fresh ≠ none → b = true) ∧
        (b = true → ∃ s' t', fs'.storage = some s' ∧ TreeOk s' t' ∧
          Chain s'.start s'.end t'.toList ∧
          (∀ x ∈ t'.toList, s'.start x < s'.end x ∨ (x ∈ fresh ∧ s'.start x = s'.end x)) ∧
          covered s' t' = covered s t) ∧
        (b = false → fs' = fs)) ∧
    (∀ r : Range,
      ∃ fs' b, filesystemFreeStorage fs r fresh = some (fs', b) ∧
        (fresh ≠ none → (b = true ↔
          r.start < r.end ∧ ∃ x ∈ t.toList, s.start x ≤ r.start ∧ r.end ≤ s.end x)) ∧
        (b = true → ∃ s' t', fs'.storage = some s' ∧ WellFormed s' t' ∧
          covered s' t' = covered s t \ Set.Ico r.start r.end) ∧
        (b = false → fs' = fs)) :=
  ⟨fun _ hn => allocateStorage_spec hs h hn hfresh, fun _ hr => reserveStorage_spec hs h hr hfresh,
    fun _ hr => reserveStorage_empty hs h hr hfresh, fun r => freeStorage_spec hs h r hfresh⟩

/-- A filesystem of four blocks whose storage map holds block 0 (`oneRangeMap`). -/
def oneTfs : Tfs ℕ := ⟨some oneRangeMap, 4, 0⟩

/-- On `oneTfs` two blocks are allocated at block 1, the first block free. -/
theorem filesystem_storage_spec_one :
    ∃ fs', filesystemAllocateStorage oneTfs 2 (some 1) = some (fs', some 1) := by
  obtain ⟨hal, -, -, -⟩ := filesystem_storage_spec (show oneTfs.storage = some oneRangeMap from rfl)
    oneRangeMap_wellFormed (show ∀ n ∈ some 1, n ∉ (CTree.node .black .nil 0 .nil).toList by simp)
  obtain ⟨fs', a, e, hnone, hsome, -⟩ := hal 2 (by decide)
  have hcov : ∀ x, x ∈ covered oneRangeMap (.node .black .nil 0 .nil) ↔ x < 1 := by
    intro x
    simp [mem_covered, oneRangeMap, RmState.start, RmState.end]
  have hsize : sizeBlocks oneTfs = 4 := rfl
  -- two blocks fit at block 1, and not at block 0, which the map holds
  have hfit1 : Fits (covered oneRangeMap (.node .black .nil 0 .nil)) 0 (sizeBlocks oneTfs) 2 1 :=
    ⟨hsize ▸ Set.Ico_subset_Ico (Nat.zero_le 1) (by decide),
      Set.disjoint_left.2 fun x hx hxc => absurd ((hcov x).1 hxc) (by simp only [Set.mem_Ico] at hx; omega)⟩
  have hfit0 : ¬Fits (covered oneRangeMap (.node .black .nil 0 .nil)) 0 (sizeBlocks oneTfs) 2 0 :=
    fun hf => Set.disjoint_left.1 hf.2 (show 0 ∈ Set.Ico 0 (0 + 2) by simp) ((hcov 0).2 one_pos)
  cases a with
  | none => exact absurd ((hnone (by simp)).1 rfl 1) (not_not.2 hfit1)
  | some x =>
    have hleast := (hsome x rfl).1
    have hx1 : x ≤ 1 := hleast.2 hfit1
    have hx0 : x ≠ 0 := fun h0 => hfit0 (h0 ▸ hleast.1)
    exact ⟨fs', by rw [e, show x = 1 by omega]⟩

def emptyRangeMap : RmState ℕ := ⟨fun _ => ⟨none, .black, none, none⟩, fun _ => ⟨0, 0⟩, initRbtree⟩

theorem emptyRangeMap_wellFormed : WellFormed emptyRangeMap .nil :=
  ⟨⟨rfl, trivial⟩, ⟨0, rfl⟩, rfl, rfl, by simp, by simp [Chain]⟩

def emptyTfs : Tfs ℕ := ⟨some emptyRangeMap, 4, 0⟩

/-- When its node allocation fails, `filesystem_allocate_storage` of one block on `emptyTfs`
    returns `INVALID_PHYSICAL`, although the map is well formed and the block fits at block 0:
    the gap `[0, 4)` borders no node, so the block can only go into a new one. -/
theorem allocateStorage_out_of_nodes :
    WellFormed emptyRangeMap .nil ∧
      filesystemAllocateStorage emptyTfs 1 none = some (emptyTfs, none) ∧
      Fits (covered emptyRangeMap .nil) 0 (sizeBlocks emptyTfs) 1 0 :=
  ⟨emptyRangeMap_wellFormed, rfl,
    Set.Ico_subset_Ico le_rfl (by decide), by simp [RangemapMerge.covered]⟩

end Nanos.TfsStorage
