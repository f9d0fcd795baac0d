import Nanos.RangemapMerge
import Mathlib.Order.Interval.Set.Disjoint
import Mathlib.Data.List.Sort
import Mathlib.Data.List.Pairwise

set_option autoImplicit false

/-!
# `rangemap_insert`, `rangemap_reinsert` and `rangemap_insert_hole`

In a well-formed range map the ranges form a chain in tree order, so the node that
`rangemap_lookup_at_or_next` finds for a point is the first node in order that ends
after it, and every node before it ends at or before the point. Both the overlap scan
of `rangemap_insert` and the loop of `rangemap_insert_hole` stop on that node, and the
chain is what makes one node enough: a range from the point that misses it misses the
whole map, and it is the only node that can hold the point.
-/

namespace Nanos.RangemapInsert
open ColorTree NodeHeap CTree Rbtree RbtreeNav RbtreeRun Rangemap Intervals RangemapMerge

variable {ν : Type} [DecidableEq ν]

/-! ## Ranges -/

theorem rangeIntersection_comm (a b : Range) : rangeIntersection a b = rangeIntersection b a := by
  simp [rangeIntersection, max_comm, min_comm]

/-- `range_span(range_intersection(a, b))` is zero exactly when the two ranges share no
    point. -/
theorem rangeSpan_intersection_eq_zero_iff (a b : Range) :
    rangeSpan (rangeIntersection a b) = 0 ↔
      Disjoint (Set.Ico a.start a.end) (Set.Ico b.start b.end) := by
  rw [Set.Ico_disjoint_Ico]
  by_cases hle : min a.end b.end ≤ max a.start b.start
  · simp [rangeIntersection, rangeSpan, hle]
  · simp only [rangeIntersection, rangeSpan, hle, ↓reduceIte, iff_false]
    exact fun h0 => hle (Nat.sub_eq_zero_iff_le.1 h0)

omit [DecidableEq ν] in
theorem start_eq_of_r_eq {s s' : RmState ν} (h : s'.r = s.r) : s'.start = s.start := by
  funext x
  simp [RmState.start, h]

omit [DecidableEq ν] in
theorem end_eq_of_r_eq {s s' : RmState ν} (h : s'.r = s.r) : s'.end = s.end := by
  funext x
  simp [RmState.end, h]

omit [DecidableEq ν] in
theorem eq_of_pairwise_lt {κ : Type} [LinearOrder κ] (key : ν → κ) {L M : List ν}
    (hL : L.Pairwise fun a b => key a < key b) (hM : M.Pairwise fun a b => key a < key b)
    (h : ∀ a, a ∈ L ↔ a ∈ M) : L = M :=
  haveI : Std.Irrefl fun a b : ν => key a < key b := ⟨fun a => lt_irrefl (key a)⟩
  haveI : Std.Antisymm fun a b : ν => key a < key b :=
    ⟨fun _ _ hab hba => absurd (hab.trans hba) (lt_irrefl _)⟩
  hL.eq_of_mem_iff hM h

/-! ## Well-formed maps as sets of disjoint ranges -/

omit [DecidableEq ν] in
/-- A map is well formed exactly when its tree is valid, ordered by start, and its ranges
    are non-empty and pairwise disjoint: the chain order is then the tree order. -/
theorem wellFormed_iff {s : RmState ν} {t : CTree ν} :
    WellFormed s t ↔ TreeOk s t ∧ (∀ x ∈ t.toList, s.start x < s.end x) ∧
      ∀ x ∈ t.toList, ∀ y ∈ t.toList, x ≠ y →
        Disjoint (Set.Ico (s.start x) (s.end x)) (Set.Ico (s.start y) (s.end y)) := by
  have : Std.Symm fun x y : ν =>
      Disjoint (Set.Ico (s.start x) (s.end x)) (Set.Ico (s.start y) (s.end y)) :=
    ⟨fun _ _ h => h.symm⟩
  constructor
  · intro h
    exact ⟨h.treeOk, h.nonempty, h.disjoint.2.forall⟩
  · rintro ⟨hok, hne, hdis⟩
    exact ⟨hok.holds, hok.balanced, hok.rootBlack, hok.count, hne,
      (chain_iff hne).2 ⟨hok.ordered, hok.ordered.nodup.pairwise_of_forall_ne hdis⟩⟩

theorem wellFormed_of_agree {s s' : RmState ν} {t : CTree ν} (h : WellFormed s t) (ht : s'.t = s.t)
    (hag : ∀ x ∈ t.toList, s'.heap x = s.heap x ∧ s'.r x = s.r x) : WellFormed s' t := by
  have hse : ∀ x ∈ t.toList, s'.start x = s.start x ∧ s'.end x = s.end x := fun x hx => by
    simp [RmState.start, RmState.end, (hag x hx).2]
  obtain ⟨hok, hne, hdis⟩ := wellFormed_iff.1 h
  refine wellFormed_iff.2 ⟨treeOk_of_agree hok ht hag, fun x hx => ?_, fun x hx y hy hxy => ?_⟩
  · rw [(hse x hx).1, (hse x hx).2]
    exact hne x hx
  · rw [(hse x hx).1, (hse x hx).2, (hse y hy).1, (hse y hy).2]
    exact hdis x hx y hy hxy

theorem wellFormed_setR_init {s : RmState ν} {t : CTree ν} {n : ν} (h : WellFormed s t)
    (hn : n ∉ t.toList) (v : Range) :
    WellFormed { s.setR n v with heap := initRbnode s.heap n } t :=
  wellFormed_of_agree h rfl fun _ hx =>
    ⟨initRbnode_ne (ne_of_mem_of_not_mem hx hn), RmState.setR_r_ne _ _ (ne_of_mem_of_not_mem hx hn)⟩

/-! ## The node found at a point -/

theorem atOrNextLoop_eq {s : RmState ν} {t : CTree ν} (point : ℕ) (h : TreeOk s t) :
    ∀ (B : List ν) {A : List ν} {fuel : ℕ}, t.toList = A ++ B → B.length < fuel →
      atOrNextLoop s point fuel B.head? = some (B.dropWhile fun y => s.end y ≤ point).head? := by
  intro B
  induction B with
  | nil =>
    rintro A (_ | fuel) ht hf
    · simp at hf
    · rfl
  | cons x B ih =>
    rintro A (_ | fuel) ht hf
    · simp at hf
    have hxA : x ∉ A := fun hmem =>
      (List.nodup_append.1 (ht ▸ h.ordered.nodup)).2.2 x hmem x List.mem_cons_self rfl
    by_cases hx : s.end x ≤ point
    · -- `x` ends at or before `point`: on to its successor
      have hnext : rangemapNextNode s x = some B.head? := by
        rw [nextNode_eq h (by simp [ht]), ht, succOf_append_cons hxA]
      have hx' : (s.r x).end ≤ point := hx
      rw [List.dropWhile_cons_of_pos (by simpa using hx),
        ← ih (A := A ++ [x]) (by simp [ht]) (by simp at hf; omega)]
      simp [atOrNextLoop, hx', hnext]
    · have hx' : ¬ (s.r x).end ≤ point := hx
      rw [List.dropWhile_cons_of_neg (by simpa using hx)]
      simp [atOrNextLoop, hx']

/-- `rangemap_lookup_at_or_next(rm, point)` on a well-formed map: the first node in
    order that ends after `point`, `INVALID_ADDRESS` when every node ends at or before it. -/
theorem lookupAtOrNext_eq {s : RmState ν} {t : CTree ν} (point : ℕ) (h : WellFormed s t) :
    rangemapLookupAtOrNext s point = some (t.toList.dropWhile fun y => s.end y ≤ point).head? := by
  have hok := h.treeOk
  have hfuel : ∀ B : List ν, B.Sublist t.toList → B.length < s.t.count + 1 := fun B hB => by
    have := hB.length_le
    rw [h.count, size]
    omega
  unfold rangemapLookupAtOrNext
  cases hroot : s.t.root with
  | none =>
    have hnil : t = .nil := (rep_none_iff (hroot ▸ h.holds.1)).1 rfl
    subst hnil
    rfl
  | some _ =>
    simp only [rbtreeLookupMaxLte_eq s.start h.holds.1 hok.ordered h.count, Option.bind_eq_bind,
      Option.bind_some]
    cases hlast : (t.toList.filter fun y => s.start y ≤ point).getLast? with
    | none =>
      -- no node starts at or before `point`: from the first node on
      simp only [rbtreeFindFirst_eq h.holds.1 h.count, Option.bind_some]
      exact atOrNextLoop_eq point hok t.toList (A := []) rfl (hfuel _ (List.Sublist.refl _))
    | some m =>
      obtain ⟨A, B, hL, hm, -⟩ := split_of_getLast?_filter_le s.start hok.ordered hlast
      -- the nodes before `m` end at or before its start, so at or before `point`
      have hA : ∀ a ∈ A, s.end a ≤ point := fun a ha => ((hL ▸ h.chain).split.1 a ha).trans hm
      have hloop := atOrNextLoop_eq point hok (m :: B) hL (hfuel _ (hL ▸ List.sublist_append_right A _))
      rw [List.head?_cons] at hloop
      simp only [Option.pure_def, Option.bind_some]
      rw [hloop, hL, List.dropWhile_append_of_pos (by simpa using hA)]

omit [DecidableEq ν] in
theorem split_of_dropWhile {L : List ν} {p : ν → Bool} {x : ν} (h : (L.dropWhile p).head? = some x) :
    ∃ A B, L = A ++ x :: B ∧ (∀ a ∈ A, p a) ∧ p x = false := by
  obtain ⟨B, hB⟩ := List.head?_eq_some_iff.1 h
  have hx := List.head?_dropWhile_not p L
  rw [h] at hx
  refine ⟨L.takeWhile p, B, ?_, fun a ha => List.mem_takeWhile_imp ha, hx⟩
  rw [← hB, List.takeWhile_append_dropWhile]

/-! ## `rangemap_insert` -/

theorem disjoint_Ico_iff {a b c d : ℕ} (hab : a < b) (hcd : c < d) :
    Disjoint (Set.Ico a b) (Set.Ico c d) ↔ b ≤ c ∨ d ≤ a := by
  rw [Set.Ico_disjoint_Ico]
  omega

theorem insertScan_some {s : RmState ν} {t : CTree ν} {n x : ν} {fuel : ℕ} (h : TreeOk s t)
    (hx : x ∈ t.toList) :
    insertScan s n (fuel + 1) (some x) =
      some (decide (rangeSpan (rangeIntersection (s.r n) (s.r x)) = 0)) := by
  by_cases h0 : rangeSpan (rangeIntersection (s.r n) (s.r x)) = 0
  · simp [insertScan, nextNode_eq h hx, h0]
  · -- an overlap: `x` starts before `n` ends, and the second test sees the overlap too
    have hlt : ¬ (s.r n).end ≤ (s.r x).start := fun hle =>
      h0 (rangeSpan_intersection_eq_zero (.inl hle))
    have h0' : rangeSpan (rangeIntersection (s.r x) (s.r n)) ≠ 0 := by
      rwa [rangeIntersection_comm]
    simp [insertScan, nextNode_eq h hx, Nat.pos_of_ne_zero h0, hlt, Nat.pos_of_ne_zero h0', h0]

/-- `rangemap_insert(rm, n)` on a well-formed map, for a node outside it with a non-empty
    range: `true` exactly when the range of `n` meets no range of the map, and then the map
    is well formed and holds `n` besides its nodes; `false` leaves the map as it was, with
    only the links of `n` reset. -/
theorem insert_eq {s : RmState ν} {t : CTree ν} {n : ν} (h : WellFormed s t) (hn : n ∉ t.toList)
    (hnr : s.start n < s.end n) :
    ∃ s' b, rangemapInsert s n = some (s', b) ∧
      (b = true ↔ ∀ y ∈ t.toList,
        Disjoint (Set.Ico (s.start n) (s.end n)) (Set.Ico (s.start y) (s.end y))) ∧
      (b = true → ∃ t', WellFormed s' t' ∧ s'.r = s.r ∧
        ∀ x, x ∈ t'.toList ↔ x = n ∨ x ∈ t.toList) ∧
      (b = false → s' = { s with heap := initRbnode s.heap n }) := by
  obtain ⟨hok, hne, hdis⟩ := wellFormed_iff.1 h
  by_cases hall : ∀ y ∈ t.toList,
      Disjoint (Set.Ico (s.start n) (s.end n)) (Set.Ico (s.start y) (s.end y))
  · -- no overlap: `n` goes into the tree
    have hsep : ∀ y ∈ t.toList, s.end y ≤ s.start n ∨ s.end n ≤ s.start y := fun y hy =>
      ((disjoint_Ico_iff hnr (hne y hy)).1 (hall y hy)).symm
    obtain ⟨s', t', e, hok', ht', hr'⟩ := rangemapInsert_spec hok hn hne hnr hsep
    have hmem : ∀ x, x ∈ t'.toList ↔ x = n ∨ x ∈ t.toList := by
      intro x
      rw [ht']
      simp only [List.mem_append, List.mem_filter, List.mem_cons, decide_eq_true_eq]
      constructor
      · rintro (⟨hx, -⟩ | rfl | ⟨hx, -⟩)
        · exact .inr hx
        · exact .inl rfl
        · exact .inr hx
      · rintro (rfl | hx)
        · exact .inr (.inl rfl)
        · -- a node of the map does not start where `n` does
          have hsx := hsep x hx
          have hx₀ := hne x hx
          rcases Nat.lt_or_gt_of_ne (show s.start x ≠ s.start n by omega) with hlt | hgt
          · exact .inl ⟨hx, hlt⟩
          · exact .inr (.inr ⟨hx, hgt⟩)
    refine ⟨s', true, e, iff_of_true rfl hall, fun _ => ⟨t', ?_, hr', hmem⟩, by simp⟩
    rw [wellFormed_iff, start_eq_of_r_eq hr', end_eq_of_r_eq hr']
    refine ⟨hok', fun x hx => ?_, fun x hx y hy hxy => ?_⟩
    · rcases (hmem x).1 hx with rfl | hx
      · exact hnr
      · exact hne x hx
    · rcases (hmem x).1 hx with rfl | hx <;> rcases (hmem y).1 hy with rfl | hy
      · exact absurd rfl hxy
      · exact hall y hy
      · exact (hall x hx).symm
      · exact hdis x hx y hy hxy
  · -- an overlap: the scan meets it on the first node that ends after the start of `n`
    push Not at hall
    obtain ⟨y, hy, hyd⟩ := hall
    have h₁ : WellFormed { s with heap := initRbnode s.heap n } t :=
      wellFormed_of_agree h rfl fun _ hx => ⟨initRbnode_ne (ne_of_mem_of_not_mem hx hn), rfl⟩
    have hyn : s.start n < s.end y := by
      by_contra hle
      exact hyd ((disjoint_Ico_iff hnr (hne y hy)).2 (.inr (not_lt.1 hle)))
    cases hd : (t.toList.dropWhile fun z => s.end z ≤ s.start n).head? with
    | none =>
      have hall := List.dropWhile_eq_nil_iff.1 (List.head?_eq_none_iff.1 hd) y hy
      exact absurd (of_decide_eq_true hall) (not_le.2 hyn)
    | some x =>
      obtain ⟨A, B, ht, hA, hx⟩ := split_of_dropWhile hd
      have hxt : x ∈ t.toList := by simp [ht]
      -- `x` overlaps `n`, since a range from the start of `n` that missed it would miss all
      have hxd : ¬ Disjoint (Set.Ico (s.start n) (s.end n)) (Set.Ico (s.start x) (s.end x)) :=
        fun hxd => hyd ((ht ▸ h.chain).disjoint_of_head (hne x hxt) hnr (by simpa using hA)
          (by simpa using hx) hxd y (ht ▸ hy))
      have hscan : insertScan { s with heap := initRbnode s.heap n } n (s.t.count + 1) (some x) =
          some false := by
        rw [insertScan_some h₁.treeOk hxt]
        simpa using fun h0 => hxd ((rangeSpan_intersection_eq_zero_iff _ _).1 h0)
      have hlook : rangemapLookupAtOrNext { s with heap := initRbnode s.heap n } (s.r n).start =
          some (some x) := by
        rw [lookupAtOrNext_eq _ h₁]
        exact congrArg some hd
      refine ⟨_, false, ?_, iff_of_false (by simp) fun hall => hyd (hall y hy), by simp,
        fun _ => rfl⟩
      simp only [rangemapInsert, hlook, hscan, Option.bind_eq_bind, Option.bind_some]
      rfl

/-! ## `rangemap_reinsert` -/

omit [DecidableEq ν] in
theorem mem_split_iff {s : RmState ν} {t : CTree ν} {A B : List ν} {x : ν} (h : WellFormed s t)
    (ht : t.toList = A ++ x :: B) {y : ν} : y ∈ A ++ B ↔ y ∈ t.toList ∧ y ≠ x := by
  have hx : x ∉ A ++ B := by
    have hnd := ht ▸ h.treeOk.ordered.nodup
    rw [List.nodup_middle, List.nodup_cons] at hnd
    exact hnd.1
  constructor
  · intro hy
    refine ⟨?_, ne_of_mem_of_not_mem hy hx⟩
    rw [ht]
    simp only [List.mem_append, List.mem_cons] at hy ⊢
    tauto
  · rintro ⟨hy, hyx⟩
    rw [ht] at hy
    simp only [List.mem_append, List.mem_cons] at hy ⊢
    tauto

/-- `rangemap_remove_range` on a node of a well-formed map: the node leaves the sequence
    and the map stays well formed. -/
theorem removeRange_wellFormed {s : RmState ν} {t : CTree ν} {A B : List ν} {x : ν}
    (h : WellFormed s t) (ht : t.toList = A ++ x :: B) :
    ∃ s' t', rangemapRemoveRange s x = some s' ∧ WellFormed s' t' ∧ t'.toList = A ++ B ∧
      s'.r = s.r := by
  obtain ⟨s', t', e, hok', ht', hr'⟩ := removeRange_eq h.treeOk ht
  obtain ⟨-, hne, hdis⟩ := wellFormed_iff.1 h
  have hsub : ∀ y ∈ t'.toList, y ∈ t.toList := fun y hy => by
    rw [ht', List.mem_append] at hy
    rw [ht]
    rcases hy with hy | hy <;> simp [hy]
  refine ⟨s', t', e, ?_, ht', hr'⟩
  rw [wellFormed_iff, start_eq_of_r_eq hr', end_eq_of_r_eq hr']
  exact ⟨hok', fun y hy => hne y (hsub y hy),
    fun a ha b hb hab => hdis a (hsub a ha) b (hsub b hb) hab⟩

/-- `rangemap_reinsert(rm, n, k)` on a node of a well-formed map and a non-empty range:
    `true` exactly when `k` meets the range of no other node, and then `n` has range `k`;
    on `false` the map holds the same sequence of nodes with the same ranges. Either way
    the map is well formed and holds the same nodes. -/
theorem reinsert_eq {s : RmState ν} {t : CTree ν} {A B : List ν} {n : ν} {k : Range}
    (h : WellFormed s t) (ht : t.toList = A ++ n :: B) (hk : k.start < k.end) :
    ∃ s' b, rangemapReinsert s n k = some (s', b) ∧
      (b = true ↔ ∀ y ∈ A ++ B, Disjoint (Set.Ico k.start k.end) (Set.Ico (s.start y) (s.end y))) ∧
      ∃ t', WellFormed s' t' ∧ (∀ x, x ∈ t'.toList ↔ x ∈ t.toList) ∧
        (b = true → s'.r = Function.update s.r n k) ∧
        (b = false → s'.r = s.r ∧ t'.toList = t.toList) := by
  obtain ⟨hok, hne, hdis⟩ := wellFormed_iff.1 h
  have hnAB : n ∉ A ++ B := fun hn => ((mem_split_iff h ht).1 hn).2 rfl
  obtain ⟨s₁, t₁, e₁, h₁, ht₁, hr₁⟩ := removeRange_wellFormed h ht
  have hn₁ : n ∉ t₁.toList := ht₁ ▸ hnAB
  have hmem₁ : ∀ x, x = n ∨ x ∈ t₁.toList ↔ x ∈ t.toList := fun x => by
    rw [ht, ht₁]
    simp only [List.mem_append, List.mem_cons]
    tauto
  have hyn : ∀ y ∈ t₁.toList, y ≠ n := fun _ hy => ne_of_mem_of_not_mem hy hn₁
  -- first `n` goes back with range `k`
  have hk₁ : WellFormed (s₁.setR n k) t₁ :=
    wellFormed_of_agree h₁ rfl fun y hy => ⟨rfl, RmState.setR_r_ne _ _ (hyn y hy)⟩
  have hkey : ∀ y ∈ t₁.toList, (s₁.setR n k).r y = s.r y := fun y hy => by
    rw [RmState.setR_r_ne _ _ (hyn y hy), hr₁]
  obtain ⟨s₂, b, e₂, hb, htrue, hfalse⟩ :=
    insert_eq hk₁ hn₁ (by simpa [RmState.start, RmState.end] using hk)
  have e₁' : rangemapRemoveNode s n = some s₁ := e₁
  have hb' : b = true ↔
      ∀ y ∈ A ++ B, Disjoint (Set.Ico k.start k.end) (Set.Ico (s.start y) (s.end y)) := by
    rw [hb, ← ht₁]
    refine forall₂_congr fun y hy => ?_
    simp [RmState.start, RmState.end, hkey y hy]
  cases b with
  | true =>
    obtain ⟨t₂, h₂, hr₂, hmem₂⟩ := htrue rfl
    refine ⟨s₂, true, ?_, hb', t₂, h₂, fun x => by rw [hmem₂, hmem₁], fun _ => ?_, by simp⟩
    · simp only [rangemapReinsert, e₁', e₂, Option.bind_eq_bind, Option.bind_some, if_true]
      rfl
    · rw [hr₂, RmState.setR, hr₁]
  | false =>
    -- `k` overlaps: `n` goes back with its old range, which meets no other range
    have hs₃ : s₂.setR n (s.r n) = { s₁ with heap := initRbnode s₁.heap n } := by
      rw [hfalse rfl]
      simp only [RmState.setR, Function.update_idem, RmState.mk.injEq, and_true, true_and]
      rw [← hr₁, Function.update_eq_self]
    have hold : WellFormed { s₁ with heap := initRbnode s₁.heap n } t₁ :=
      wellFormed_of_agree h₁ rfl fun y hy => ⟨initRbnode_ne (hyn y hy), rfl⟩
    have hnt : n ∈ t.toList := by simp [ht]
    obtain ⟨s₃, b', e₃, hb₃, htrue₃, -⟩ := insert_eq hold hn₁ (by
      simpa [RmState.start, RmState.end, hr₁] using hne n hnt)
    have hb₃' : b' = true := hb₃.2 fun y hy => by
      have hyt : y ∈ t.toList := (hmem₁ y).1 (.inr hy)
      simpa [RmState.start, RmState.end, hr₁] using hdis n hnt y hyt (hyn y hy).symm
    subst hb₃'
    obtain ⟨t₃, h₃, hr₃, hmem₃⟩ := htrue₃ rfl
    have hr₃' : s₃.r = s.r := by rw [hr₃, ← hr₁]
    have hmem : ∀ x, x ∈ t₃.toList ↔ x ∈ t.toList := fun x => by rw [hmem₃, hmem₁]
    refine ⟨s₃, false, ?_, iff_of_false (by simp) (hb'.not.1 (by simp)), t₃, h₃, hmem,
      by simp, fun _ => ⟨hr₃', ?_⟩⟩
    · simp only [rangemapReinsert, e₁', e₂, Option.bind_eq_bind, Option.bind_some]
      simp only [Bool.false_eq_true, if_false, hs₃, e₃, Option.bind_some, if_true]
      rfl
    · -- the same nodes in the same order of starts
      have ho₃ := h₃.treeOk.ordered
      rw [Ordered, start_eq_of_r_eq hr₃'] at ho₃
      exact eq_of_pairwise_lt s.start ho₃ hok.ordered hmem

/-- `rangemap_insert(rm, n)` on a well-formed map, for a node outside it with a non-empty
    range, returns `true` exactly when the range of `n` meets no range of the map: the map
    then holds its nodes and `n` and is well formed; on `false` the map is unchanged, and
    only the links of `n`, which is not in it, are reset. `rangemap_reinsert(rm, n, k)`,
    for a node of the map and a non-empty `k`, returns `true` exactly when `k` meets the
    range of no other node, and then `n` has moved to `k`; on `false` the map holds the same
    nodes in the same order with the same ranges. -/
theorem rangemap_insert_reinsert_spec {s : RmState ν} {t : CTree ν} (h : WellFormed s t) :
    (∀ n, n ∉ t.toList → s.start n < s.end n →
      ∃ s' b, rangemapInsert s n = some (s', b) ∧
        (b = true ↔ ∀ y ∈ t.toList,
          Disjoint (Set.Ico (s.start n) (s.end n)) (Set.Ico (s.start y) (s.end y))) ∧
        (b = true → ∃ t', WellFormed s' t' ∧ s'.r = s.r ∧
          ∀ x, x ∈ t'.toList ↔ x = n ∨ x ∈ t.toList) ∧
        (b = false → s'.t = s.t ∧ s'.r = s.r ∧ ∀ x, x ≠ n → s'.heap x = s.heap x)) ∧
    ∀ n k, n ∈ t.toList → k.start < k.end →
      ∃ s' b, rangemapReinsert s n k = some (s', b) ∧
        (b = true ↔ ∀ y ∈ t.toList, y ≠ n →
          Disjoint (Set.Ico k.start k.end) (Set.Ico (s.start y) (s.end y))) ∧
        ∃ t', WellFormed s' t' ∧ (∀ x, x ∈ t'.toList ↔ x ∈ t.toList) ∧
          (b = true → s'.r = Function.update s.r n k) ∧
          (b = false → s'.r = s.r ∧ t'.toList = t.toList) := by
  refine ⟨fun n hn hnr => ?_, fun n k hn hk => ?_⟩
  · obtain ⟨s', b, e, hb, htrue, hfalse⟩ := insert_eq h hn hnr
    refine ⟨s', b, e, hb, htrue, fun hb => ?_⟩
    rw [hfalse hb]
    exact ⟨rfl, rfl, fun x hx => initRbnode_ne hx⟩
  · obtain ⟨A, B, ht⟩ := List.append_of_mem hn
    obtain ⟨s', b, e, hb, t', h', hmem, htrue, hfalse⟩ := reinsert_eq h ht hk
    refine ⟨s', b, e, ?_, t', h', hmem, htrue, hfalse⟩
    -- the nodes other than `n` are those of `A ++ B`
    rw [hb]
    exact forall_congr' fun y => by rw [mem_split_iff h ht, and_imp]

/-- The node `1`, whose range `[0, 1)` is that of the node `0` of `oneRangeMap`, does not
    go in. -/
theorem rangemap_insert_reinsert_spec_overlap :
    ∃ s' b, rangemapInsert oneRangeMap 1 = some (s', b) ∧ b = false ∧ s'.t = oneRangeMap.t ∧
      s'.r = oneRangeMap.r := by
  obtain ⟨s', b, e, hb, -, hfalse⟩ :=
    (rangemap_insert_reinsert_spec oneRangeMap_wellFormed).1 1 (by simp)
      (by simp [oneRangeMap, RmState.start, RmState.end])
  have hb' : b = false := by
    rw [← Bool.not_eq_true, hb]
    simp [oneRangeMap, RmState.start, RmState.end, Set.Ico_eq_empty_iff]
  obtain ⟨ht, hr, -⟩ := hfalse hb'
  exact ⟨s', b, e, hb', ht, hr⟩

/-! ## `rangemap_insert_hole` -/

omit [DecidableEq ν] in
theorem covered_of_update {s s' : RmState ν} {t t' : CTree ν} {A B : List ν} {x : ν} {k : Range}
    (ht : t.toList = A ++ x :: B) (hmem : ∀ y, y ∈ t'.toList ↔ y ∈ t.toList) (hx : s'.r x = k)
    (hAB : ∀ y ∈ A ++ B, s'.r y = s.r y) :
    covered s' t' = Intervals.covered s.start s.end A ∪
      (Set.Ico k.start k.end ∪ Intervals.covered s.start s.end B) := by
  have hse : ∀ y ∈ A ++ B, s'.start y = s.start y ∧ s'.end y = s.end y := fun y hy => by
    simp [RmState.start, RmState.end, hAB y hy]
  unfold RangemapMerge.covered
  rw [covered_eq_of_mem_iff (M := A ++ x :: B) fun y => by rw [hmem, ht], covered_append,
    covered_cons, covered_congr fun y hy => hse y (List.mem_append_left B hy),
    covered_congr fun y hy => hse y (List.mem_append_right A hy)]
  simp [RmState.start, RmState.end, hx]

omit [DecidableEq ν] in
theorem covered_of_insert {s s' : RmState ν} {t t' : CTree ν} {n : ν}
    (hmem : ∀ y, y ∈ t'.toList ↔ y = n ∨ y ∈ t.toList) (hr : s'.r = s.r) :
    covered s' t' = Set.Ico (s.start n) (s.end n) ∪ covered s t := by
  unfold RangemapMerge.covered
  rw [start_eq_of_r_eq hr, end_eq_of_r_eq hr,
    covered_eq_of_mem_iff (M := n :: t.toList) fun y => by rw [hmem, List.mem_cons], covered_cons]

theorem reinsert_shrink {s : RmState ν} {t : CTree ν} {A B : List ν} {x : ν} {k : Range}
    (h : WellFormed s t) (ht : t.toList = A ++ x :: B) (hk : k.start < k.end)
    (hks : s.start x ≤ k.start) (hke : k.end ≤ s.end x) :
    ∃ s' t', rangemapReinsert s x k = some (s', true) ∧ WellFormed s' t' ∧
      (∀ y, y ∈ t'.toList ↔ y ∈ t.toList) ∧ s'.r = Function.update s.r x k := by
  obtain ⟨-, -, hdis⟩ := wellFormed_iff.1 h
  obtain ⟨s', b, e, hb, t', h', hmem, htrue, -⟩ := reinsert_eq h ht hk
  -- `k` lies inside the range of `x`, which meets no other range
  have hb' : b = true := hb.2 fun y hy => by
    obtain ⟨hyt, hyx⟩ := (mem_split_iff h ht).1 hy
    exact Set.disjoint_of_subset_left (Set.Ico_subset_Ico hks hke)
      (hdis x (by simp [ht]) y hyt hyx.symm)
  subst hb'
  exact ⟨s', t', e, h', hmem, htrue rfl⟩

omit [DecidableEq ν] in
theorem holds_iff_head {s : RmState ν} {t : CTree ν} (h : WellFormed s t) (r : Range) :
    (r.start < r.end ∧ ∃ y ∈ t.toList, s.start y ≤ r.start ∧ r.end ≤ s.end y) ↔
      ∃ x ∈ (t.toList.dropWhile fun y => s.end y ≤ r.start).head?,
        r.start < r.end ∧ s.start x ≤ r.start ∧ r.end ≤ s.end x := by
  constructor
  · rintro ⟨hr, y, hy, hys, hye⟩
    -- `y` ends after `r.start`, so the lookup finds a node, and that node is `y`
    have hyD : y ∈ t.toList.dropWhile fun y => s.end y ≤ r.start := by
      rw [← List.takeWhile_append_dropWhile (p := fun y => s.end y ≤ r.start) (l := t.toList)] at hy
      refine (List.mem_append.1 hy).resolve_left fun hyT => ?_
      have := List.mem_takeWhile_imp hyT
      simp only [decide_eq_true_eq] at this
      omega
    obtain ⟨x, hx⟩ := Option.isSome_iff_exists.1
      (List.isSome_head?.2 (List.ne_nil_of_mem hyD))
    obtain ⟨A, B, ht, hA, hxe⟩ := split_of_dropWhile hx
    simp only [decide_eq_true_eq, decide_eq_false_iff_not, not_le] at hA hxe
    obtain rfl := (ht ▸ h.chain).eq_of_mem_Ico hA hxe (ht ▸ hy) ⟨hys, by omega⟩
    exact ⟨y, hx, hr, hys, hye⟩
  · rintro ⟨x, hx, hr, hxs, hxe⟩
    exact ⟨hr, x, (List.dropWhile_sublist _).subset (List.mem_of_mem_head? hx), hxs, hxe⟩

section hole
variable {s : RmState ν} {t : CTree ν} {A B : List ν} {x : ν} {r : Range}

omit [DecidableEq ν] in
theorem covered_sdiff_hole (h : WellFormed s t) (ht : t.toList = A ++ x :: B)
    (hr : r.start < r.end) (hxs : s.start x ≤ r.start) (hxe : r.end ≤ s.end x) :
    covered s t \ Set.Ico r.start r.end = Intervals.covered s.start s.end A ∪
      (Set.Ico (s.start x) r.start ∪ Set.Ico r.end (s.end x) ∪
        Intervals.covered s.start s.end B) := by
  unfold RangemapMerge.covered
  rw [ht]
  exact (ht ▸ h.chain).covered_diff hxs hr.le hxe

theorem hole_by_reinsert (h : WellFormed s t) (ht : t.toList = A ++ x :: B)
    (hr : r.start < r.end) (hxs : s.start x ≤ r.start) (hxe : r.end ≤ s.end x) {k : Range}
    (hk : k.start < k.end) (hks : s.start x ≤ k.start) (hke : k.end ≤ s.end x)
    (hcut : Set.Ico (s.start x) r.start ∪ Set.Ico r.end (s.end x) = Set.Ico k.start k.end) :
    ∃ s' t', rangemapReinsert s x k = some (s', true) ∧ WellFormed s' t' ∧
      covered s' t' = covered s t \ Set.Ico r.start r.end := by
  obtain ⟨s', t', e, h', hmem, hr'⟩ := reinsert_shrink h ht hk hks hke
  refine ⟨s', t', e, h', ?_⟩
  rw [covered_of_update (s := s) ht hmem (by rw [hr', Function.update_self]) fun y hy => by
    rw [hr', Function.update_of_ne ((mem_split_iff h ht).1 hy).2],
    covered_sdiff_hole h ht hr hxs hxe, hcut]

theorem hole_by_remove (h : WellFormed s t) (ht : t.toList = A ++ x :: B)
    (hxs : s.start x = r.start) (hxe : s.end x = r.end) :
    ∃ s' t', rangemapRemoveRange s x = some s' ∧ WellFormed s' t' ∧
      covered s' t' = covered s t \ Set.Ico r.start r.end := by
  obtain ⟨s', t', e, h', ht', hr'⟩ := removeRange_wellFormed h ht
  refine ⟨s', t', e, h', ?_⟩
  have hr : r.start < r.end := hxs ▸ hxe ▸ h.nonempty x (by simp [ht])
  rw [covered_sdiff_hole h ht hr hxs.le hxe.ge, hxs, hxe]
  simp only [Set.Ico_self, Set.union_empty, Set.empty_union]
  unfold RangemapMerge.covered
  rw [start_eq_of_r_eq hr', end_eq_of_r_eq hr', ht', covered_append]

theorem hole_by_split (h : WellFormed s t) (ht : t.toList = A ++ x :: B) {n : ν}
    (hn : n ∉ t.toList) (hr : r.start < r.end) (hxs : s.start x < r.start)
    (hxe : r.end < s.end x) :
    ∃ s₂ s₃ t₃, rangemapReinsert { s.setR n ⟨r.end, (s.r x).end⟩ with heap := initRbnode s.heap n }
        x ⟨(s.r x).start, r.start⟩ = some (s₂, true) ∧ rangemapInsert s₂ n = some (s₃, true) ∧
      WellFormed s₃ t₃ ∧ covered s₃ t₃ = covered s t \ Set.Ico r.start r.end := by
  obtain ⟨-, hne, hdis⟩ := wellFormed_iff.1 h
  have hxt : x ∈ t.toList := by simp [ht]
  have hxn : x ≠ n := ne_of_mem_of_not_mem hxt hn
  have hxe' : r.end < (s.r x).end := hxe
  -- first `x` shrinks to the part below `r`
  obtain ⟨s₂, t₂, e₂, h₂, hmem₂, hr₂⟩ :=
    reinsert_shrink (wellFormed_setR_init h hn ⟨r.end, (s.r x).end⟩) ht
      (k := ⟨(s.r x).start, r.start⟩) hxs
      (by simp [RmState.start, RmState.setR_r_ne _ _ hxn]) (by
        simp only [RmState.end, RmState.setR_r_ne _ _ hxn]
        omega)
  have hn₂ : s₂.r n = ⟨r.end, (s.r x).end⟩ := by
    rw [hr₂, Function.update_of_ne hxn.symm]
    exact RmState.setR_r_self _ _ _
  have hx₂ : s₂.r x = ⟨(s.r x).start, r.start⟩ := by rw [hr₂, Function.update_self]
  have hsn : Set.Ico (s₂.start n) (s₂.end n) = Set.Ico r.end (s.end x) := by
    simp [RmState.start, RmState.end, hn₂]
  -- then `n` goes in with the part above `r`, which meets no range of the map
  obtain ⟨s₃, b, e₃, hb, htrue, -⟩ := insert_eq h₂ (fun hn' => hn ((hmem₂ n).1 hn'))
    (by simp only [RmState.start, RmState.end, hn₂]; omega)
  have hb' : b = true := hb.2 fun y hy => by
    have hyt := (hmem₂ y).1 hy
    rw [hsn]
    by_cases hyx : y = x
    · subst hyx
      rw [Set.Ico_disjoint_Ico]
      simp only [RmState.start, RmState.end, hx₂]
      omega
    · have hy₂ : s₂.r y = s.r y := by
        rw [hr₂, Function.update_of_ne hyx, RmState.setR_r_ne _ _ (ne_of_mem_of_not_mem hyt hn)]
      have hsub : Set.Ico r.end (s.end x) ⊆ Set.Ico (s.start x) (s.end x) :=
        Set.Ico_subset_Ico (by omega) le_rfl
      simpa [RmState.start, RmState.end, hy₂] using
        Set.disjoint_of_subset_left hsub (hdis x hxt y hyt (Ne.symm hyx))
  subst hb'
  obtain ⟨t₃, h₃, hr₃, hmem₃⟩ := htrue rfl
  refine ⟨s₂, s₃, t₃, e₂, e₃, h₃, ?_⟩
  rw [covered_of_insert hmem₃ hr₃, hsn, covered_of_update (s := s) ht hmem₂ hx₂ fun y hy => by
    obtain ⟨hyt, hyx⟩ := (mem_split_iff h ht).1 hy
    rw [hr₂, Function.update_of_ne hyx, RmState.setR_r_ne _ _ (ne_of_mem_of_not_mem hyt hn)],
    covered_sdiff_hole h ht hr hxs.le hxe.le]
  ext a
  simp only [Set.mem_union, Set.mem_Ico, RmState.start, RmState.end]
  tauto

end hole

/-- `rangemap_insert_hole(rm, r)` on a well-formed map, with `fresh` what its `allocate`
    returns, a node outside the map or `INVALID_ADDRESS`. When the allocation succeeds the
    call returns `true` exactly when `r` is non-empty and inside the range of one node. On
    `true` the map is well formed, so no empty node is left, and it covers what it covered
    less `r`; on `false` it is unchanged. -/
theorem insertHole_spec {s : RmState ν} {t : CTree ν} {r : Range} {fresh : Option ν}
    (h : WellFormed s t) (hfresh : ∀ n ∈ fresh, n ∉ t.toList) :
    ∃ s' b, rangemapInsertHole s r fresh = some (s', b) ∧
      (fresh ≠ none → (b = true ↔
        r.start < r.end ∧ ∃ x ∈ t.toList, s.start x ≤ r.start ∧ r.end ≤ s.end x)) ∧
      (b = true → ∃ t', WellFormed s' t' ∧ covered s' t' = covered s t \ Set.Ico r.start r.end) ∧
      (b = false → s' = s) := by
  rw [holds_iff_head h r]
  unfold rangemapInsertHole
  rw [lookupAtOrNext_eq r.start h]
  simp only [Option.bind_eq_bind, Option.bind_some]
  cases hd : (t.toList.dropWhile fun y => s.end y ≤ r.start).head? with
  | none => exact ⟨s, false, rfl, fun _ => iff_of_false (by simp) (by simp), by simp, fun _ => rfl⟩
  | some x =>
    -- the node found is the only one that can hold `r`: the tests look at it alone
    obtain ⟨A, B, ht, -, -⟩ := split_of_dropWhile hd
    have hxt : x ∈ t.toList := by simp [ht]
    have hfalse : ¬ (r.start < r.end ∧ s.start x ≤ r.start ∧ r.end ≤ s.end x) →
        ∃ s' b, some (s, false) = some (s', b) ∧
          (fresh ≠ none → (b = true ↔ ∃ y ∈ some x,
            r.start < r.end ∧ s.start y ≤ r.start ∧ r.end ≤ s.end y)) ∧
          (b = true → ∃ t', WellFormed s' t' ∧
            covered s' t' = covered s t \ Set.Ico r.start r.end) ∧ (b = false → s' = s) :=
      fun hno => ⟨s, false, rfl, fun _ => iff_of_false (by simp) (by simpa using hno), by simp,
        fun _ => rfl⟩
    dsimp only
    rw [nextNode_eq h.treeOk hxt, Option.bind_some]
    by_cases hm : rangeSpan (rangeIntersection r (s.r x)) > 0
    swap
    · -- `r` is empty or misses `x`
      rw [if_neg hm]
      refine hfalse fun ⟨hr, hxs, hxe⟩ => hm (Nat.pos_of_ne_zero fun h0 => ?_)
      exact Set.disjoint_left.1 ((rangeSpan_intersection_eq_zero_iff _ _).1 h0)
        (Set.left_mem_Ico.2 hr) ⟨hxs, lt_of_lt_of_le hr hxe⟩
    rw [if_pos hm]
    by_cases hout : (s.r x).start > r.start ∨ (s.r x).end < r.end
    · -- `r` is not inside `x`
      rw [if_pos hout]
      refine hfalse fun ⟨_, hxs, hxe⟩ => ?_
      simp only [RmState.start, RmState.end] at hxs hxe
      omega
    rw [if_neg hout]
    -- `x` holds `r`, which is not empty
    have hxs : s.start x ≤ r.start := by
      simp only [RmState.start]
      omega
    have hxe : r.end ≤ s.end x := by
      simp only [RmState.end]
      omega
    have hr : r.start < r.end := by
      by_contra hle
      have h0 : rangeSpan (rangeIntersection r (s.r x)) = 0 :=
        (rangeSpan_intersection_eq_zero_iff _ _).2 (by
          rw [Set.Ico_eq_empty hle]
          exact Set.empty_disjoint _)
      omega
    have hin : ∃ y ∈ some x, r.start < r.end ∧ s.start y ≤ r.start ∧ r.end ≤ s.end y :=
      ⟨x, rfl, hr, hxs, hxe⟩
    -- the four shapes of the hole
    by_cases hlt : (s.r x).start < r.start
    · rw [if_pos hlt]
      by_cases hgt : (s.r x).end > r.end
      · rw [if_pos hgt]
        cases fresh with
        | none => exact ⟨s, false, rfl, fun hf => absurd rfl hf, by simp, fun _ => rfl⟩
        | some n =>
          obtain ⟨s₂, s₃, t₃, e₂, e₃, h₃, hcov⟩ := hole_by_split h ht (hfresh n rfl) hr hlt hgt
          refine ⟨s₃, true, ?_, fun _ => iff_of_true rfl hin, fun _ => ⟨t₃, h₃, hcov⟩, by simp⟩
          dsimp only
          rw [RmState.setR_r_ne _ _ (ne_of_mem_of_not_mem hxt (hfresh n rfl)), e₂]
          simp only [Option.bind_some, e₃]
          rfl
      · rw [if_neg hgt]
        have hend : s.end x = r.end := by
          simp only [RmState.end]
          omega
        obtain ⟨s', t', e, h', hcov⟩ := hole_by_reinsert h ht hr hxs hxe
          (k := ⟨(s.r x).start, r.start⟩) hlt le_rfl (by simp only [RmState.end]; omega)
          (by rw [hend, Set.Ico_self, Set.union_empty]; rfl)
        exact ⟨s', true, by rw [e]; rfl, fun _ => iff_of_true rfl hin, fun _ => ⟨t', h', hcov⟩,
          by simp⟩
    · rw [if_neg hlt]
      have hstart : s.start x = r.start := by
        simp only [RmState.start]
        omega
      by_cases hgt : (s.r x).end > r.end
      · rw [if_pos hgt]
        obtain ⟨s', t', e, h', hcov⟩ := hole_by_reinsert h ht hr hxs hxe
          (k := ⟨r.end, (s.r x).end⟩) hgt (by simp only [RmState.start]; omega) le_rfl
          (by rw [hstart, Set.Ico_self, Set.empty_union]; rfl)
        exact ⟨s', true, by rw [e]; rfl, fun _ => iff_of_true rfl hin, fun _ => ⟨t', h', hcov⟩,
          by simp⟩
      · rw [if_neg hgt]
        obtain ⟨s', t', e, h', hcov⟩ := hole_by_remove h ht hstart (by simp only [RmState.end]; omega)
        exact ⟨s', true, by rw [e]; rfl, fun _ => iff_of_true rfl hin, fun _ => ⟨t', h', hcov⟩,
          by simp⟩

/-- `rangemap_insert_hole(rm, r)` meets `insertHole_spec`. -/
theorem rangemap_insert_hole_spec {s : RmState ν} {t : CTree ν} {r : Range} {fresh : Option ν}
    (h : WellFormed s t) (hfresh : ∀ n ∈ fresh, n ∉ t.toList) :
    ∃ s' b, rangemapInsertHole s r fresh = some (s', b) ∧
      (fresh ≠ none → (b = true ↔
        r.start < r.end ∧ ∃ x ∈ t.toList, s.start x ≤ r.start ∧ r.end ≤ s.end x)) ∧
      (b = true → ∃ t', WellFormed s' t' ∧ covered s' t' = covered s t \ Set.Ico r.start r.end) ∧
      (b = false → s' = s) :=
  insertHole_spec h hfresh

/-- A hole that is the whole range of the one node of `oneRangeMap` removes the node. -/
theorem rangemap_insert_hole_spec_whole :
    ∃ s' t', rangemapInsertHole oneRangeMap ⟨0, 1⟩ (some 1) = some (s', true) ∧
      WellFormed s' t' ∧ covered s' t' = ∅ := by
  obtain ⟨s', b, e, hb, htrue, -⟩ :=
    @rangemap_insert_hole_spec ℕ _ _ _ ⟨0, 1⟩ (some 1) oneRangeMap_wellFormed (by simp)
  have hb' : b = true := (hb (by simp)).2
    ⟨by decide, 0, by simp, by simp [oneRangeMap, RmState.start, RmState.end]⟩
  subst hb'
  obtain ⟨t', h', hcov⟩ := htrue rfl
  refine ⟨s', t', e, h', ?_⟩
  rw [hcov]
  ext a
  simp [RangemapMerge.covered, Intervals.covered, oneRangeMap, RmState.start, RmState.end]

end Nanos.RangemapInsert
