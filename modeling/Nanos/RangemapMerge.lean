import Nanos.Rangemap
import Nanos.Intervals
import Nanos.RbtreeRun
import Mathlib.Data.List.TakeWhile

set_option autoImplicit false

/-!
# `rangemap_insert_range`: merging a range into a range map

A well-formed range map holds an ordered left-leaning red-black tree of non-empty
ranges in which each range ends at or before the start of the next one in tree
order: the tree order by start is the order of addresses, and no two ranges meet.
Inserting a non-empty range keeps the map well formed, and it covers afterwards the
points it covered before and those of the range; a map in which no two ranges even
touch keeps that too. The proof follows the code: the lookup that finds the first
node to merge splits the in-order sequence at it, the merge loop widens that node by
the nodes that start within the range and removes them one by one, and when no node
is merged the new node goes in where the scan of `rangemap_insert` finds no overlap.
-/

namespace Nanos.RangemapMerge
open ColorTree NodeHeap CTree RbtreeRefinement Rbtree RbtreeNav RbtreeRun Rangemap Intervals

variable {ν : Type} [DecidableEq ν]

def covered (s : RmState ν) (t : CTree ν) : Set ℕ := Intervals.covered s.start s.end t.toList

/-- A range map whose heap holds the tree `t`. -/
structure WellFormed (s : RmState ν) (t : CTree ν) : Prop where
  holds : Holds s.heap none s.t.root t
  balanced : ∃ m, LL m t
  rootBlack : t.isRed = false
  count : s.t.count = t.size
  nonempty : ∀ x ∈ t.toList, s.start x < s.end x
  chain : Chain s.start s.end t.toList

/-- No two ranges of the map overlap or touch. -/
def NoAbut (s : RmState ν) (t : CTree ν) : Prop := Apart s.start s.end t.toList

/-- The rbtree part of a well-formed map: ordered by start, as `rmnode_compare` needs. -/
def TreeOk (s : RmState ν) (t : CTree ν) : Prop := Valid s.start s.heap s.t (keys s.start t) t

omit [DecidableEq ν] in
theorem WellFormed.treeOk {s : RmState ν} {t : CTree ν} (h : WellFormed s t) : TreeOk s t :=
  ⟨h.holds, h.chain.lo_lt h.nonempty, h.balanced, h.rootBlack, h.count, rfl⟩

omit [DecidableEq ν] in
/-- The ranges of a well-formed map are pairwise disjoint, and the tree order by start
    is the order of their addresses. -/
theorem WellFormed.disjoint {s : RmState ν} {t : CTree ν} (h : WellFormed s t) :
    Ordered s.start t ∧ t.toList.Pairwise fun x y =>
      Disjoint (Set.Ico (s.start x) (s.end x)) (Set.Ico (s.start y) (s.end y)) :=
  (chain_iff h.nonempty).1 h.chain

omit [DecidableEq ν] in
theorem treeOk_of_valid {s : RmState ν} {t : CTree ν} {S : Finset ℕ}
    (h : Valid s.start s.heap s.t S t) : TreeOk s t := by
  obtain ⟨hs, ho, hb, hr, hc, rfl⟩ := h
  exact ⟨hs, ho, hb, hr, hc, rfl⟩

theorem nextNode_eq {s : RmState ν} {t : CTree ν} {x : ν} (h : TreeOk s t) (hx : x ∈ t.toList) :
    rangemapNextNode s x = some (succOf t.toList x) :=
  rbnodeGetNext_eq h.holds h.ordered.nodup hx (by have := height_le_size t; rw [h.count]; omega)

theorem removeRange_eq {s : RmState ν} {t : CTree ν} {A B : List ν} {x : ν} (h : TreeOk s t)
    (ht : t.toList = A ++ x :: B) :
    ∃ s' t', rangemapRemoveRange s x = some s' ∧ TreeOk s' t' ∧ t'.toList = A ++ B ∧
      s'.r = s.r := by
  obtain ⟨H', T', t', res, e, hv', hlist, hres, -⟩ := remove_valid s.start h (k := x)
  have hr : res = true := hres.2 ⟨x, by simp [ht], rfl⟩
  subst hr
  refine ⟨{ s with heap := H', t := T' }, t', ?_, treeOk_of_valid hv', ?_, rfl⟩
  · simp only [rangemapRemoveRange, rangemapRemoveNode]
    rw [show rbtreeRemoveByKey s.start s.heap s.t x = some (H', T', true) from e]
    rfl
  · rw [hlist, ht]
    exact filter_key_ne_of_mem (ht ▸ h.ordered)

theorem treeOk_setR_end {s : RmState ν} {t : CTree ν} (h : TreeOk s t) (n : ν) (e : ℕ) :
    TreeOk (s.setR n { s.r n with «end» := e }) t := by
  unfold TreeOk
  rw [RmState.start_setR_end, RmState.setR_heap, RmState.setR_t]
  exact h

theorem setR_end_max (s : RmState ν) (n : ν) (e : ℕ) :
    (if (s.r n).end < e then s.setR n { s.r n with «end» := e } else s) =
      s.setR n { s.r n with «end» := max (s.r n).end e } := by
  split
  · rw [max_eq_right (le_of_lt ‹_›)]
  · rw [max_eq_left (le_of_not_gt ‹_›)]
    simp [RmState.setR]

/-- The end that the merge loop gives the merged node, from end `e`: the largest of
    `e` and the ends of the nodes of `Q` up to the first that starts after `r.end`. -/
def mergedEnd (R : ν → Range) (r : Range) (Q : List ν) (e : ℕ) : ℕ :=
  (Q.takeWhile fun q => (R q).start ≤ r.end).foldl (fun b q => max b (R q).end) e

omit [DecidableEq ν] in
theorem mergedEnd_cons_of_le {R : ν → Range} {r : Range} {q : ν} {Q : List ν} (e : ℕ)
    (h : (R q).start ≤ r.end) : mergedEnd R r (q :: Q) e = mergedEnd R r Q (max e (R q).end) := by
  simp [mergedEnd, List.takeWhile_cons_of_pos, h]

omit [DecidableEq ν] in
theorem mergedEnd_cons_of_lt {R : ν → Range} {r : Range} {q : ν} {Q : List ν} (e : ℕ)
    (h : r.end < (R q).start) : mergedEnd R r (q :: Q) e = e := by
  simp [mergedEnd, List.takeWhile_cons_of_neg, not_le.2 h]

/-- The merge loop once it has a node `m` to widen, over the nodes `Q` that follow
    `m`: it widens `m` by the ends of the nodes of `Q` that start at or before
    `r.end`, removes those nodes, and leaves the other ranges, those of `R`, alone. -/
theorem mergeLoop_merged (r : Range) (R : ν → Range) :
    ∀ (Q : List ν) {fuel : ℕ} {s : RmState ν} {t : CTree ν} {P : List ν} {m : ν},
      TreeOk s t → t.toList = P ++ m :: Q → Q.length < fuel → (∀ x, x ≠ m → s.r x = R x) →
      ∃ s' t', mergeLoop r fuel s Q.head? (some m) = some (s', some m) ∧ TreeOk s' t' ∧
        t'.toList = P ++ m :: Q.dropWhile (fun q => (R q).start ≤ r.end) ∧
        (∀ x, x ≠ m → s'.r x = R x) ∧
        s'.r m = { s.r m with «end» := mergedEnd R r Q (s.end m) } := by
  intro Q
  induction Q with
  | nil =>
    rintro (_ | fuel) s t P m hs ht hf hR
    · simp at hf
    · exact ⟨s, t, rfl, hs, by simpa using ht, hR, rfl⟩
  | cons q Q ih =>
    rintro (_ | fuel) s t P m hs ht hf hR
    · simp at hf
    have ht' : t.toList = (P ++ [m]) ++ q :: Q := by simp [ht]
    have hqA : q ∉ P ++ [m] := fun hmem =>
      (List.nodup_append.1 (ht' ▸ hs.ordered.nodup)).2.2 q hmem q List.mem_cons_self rfl
    have hqm : q ≠ m := fun e => hqA (by simp [e])
    have hRq : s.r q = R q := hR q hqm
    by_cases hq : (R q).start ≤ r.end
    · -- `q` starts within the range: widen `m` by it and remove it
      have hnext : rangemapNextNode s q = some Q.head? := by
        rw [nextNode_eq hs (by simp [ht]), ht', succOf_append_cons hqA]
      obtain ⟨s₂, t₂, hrem, hs₂, ht₂, hr₂⟩ :=
        removeRange_eq (treeOk_setR_end hs m (max (s.end m) (R q).end)) ht'
      have hR₂ : ∀ x, x ≠ m → s₂.r x = R x := by
        intro x hx
        rw [hr₂, RmState.setR_r_ne _ _ hx, hR x hx]
      obtain ⟨s', t', e', hs', ht'', hR', hm'⟩ :=
        ih hs₂ (by simpa using ht₂) (by simp at hf; omega) hR₂
      refine ⟨s', t', ?_, hs', by simpa [List.dropWhile_cons_of_pos, hq] using ht'', hR', ?_⟩
      · have hrem' : rangemapRemoveRange
            (s.setR m { s.r m with «end» := max (s.r m).end (R q).end }) q = some s₂ := hrem
        simp only [List.head?_cons, mergeLoop, hRq, if_pos hq, hnext, Option.bind_eq_bind, Option.bind_some]
        rw [setR_end_max, hrem', Option.bind_some]
        exact e'
      · rw [hm', mergedEnd_cons_of_le _ hq]
        simp [RmState.end, hr₂]
    · -- `q` starts after the range: the loop stops
      refine ⟨s, t, ?_, hs, by simpa [List.dropWhile_cons_of_neg, hq] using ht, hR, ?_⟩
      · simp [mergeLoop, hRq, hq]
      · rw [mergedEnd_cons_of_lt _ (lt_of_not_ge hq)]
        rfl

/-- The lookup at the head of `rangemap_insert_range` splits the in-order sequence at
    the node it finds: the nodes before it end at or before `r.start`, and it ends at
    or after `r.start`. Either it starts at or before `r.start`, or the nodes before it
    end strictly before `r.start`. -/
theorem insertRangeStart_spec {s : RmState ν} {t : CTree ν} (r : Range) (h : WellFormed s t) :
    ∃ P Q, insertRangeStart s r = some Q.head? ∧ t.toList = P ++ Q ∧
      (∀ p ∈ P, s.end p ≤ r.start) ∧ (∀ q ∈ Q.head?, r.start ≤ s.end q) ∧
      ((∃ q ∈ Q.head?, s.start q ≤ r.start) ∨ ∀ p ∈ P, s.end p < r.start) := by
  have hok := h.treeOk
  have hmax := rbtreeLookupMaxLte_eq s.start (k := r.start) h.holds.1 hok.ordered h.count
  simp only [insertRangeStart, hmax, Option.bind_eq_bind, Option.bind_some]
  cases hlast : (t.toList.filter fun y => s.start y ≤ r.start).getLast? with
  | none =>
    -- every node starts after `r.start`: the loop starts from the first node
    have habove := lt_of_getLast?_filter_le_eq_none s.start hlast
    simp only [rbtreeFindFirst_eq h.holds.1 h.count, Option.bind_some]
    cases hL : t.toList with
    | nil => exact ⟨[], [], by simp, by simp, by simp, by simp, .inr (by simp)⟩
    | cons q L =>
      have hq : r.start < s.end q :=
        (habove q (by simp [hL])).trans (h.nonempty q (by simp [hL]))
      refine ⟨[], q :: L, ?_, by simp, by simp, by simpa using hq.le, .inr (by simp)⟩
      simp [RmState.end] at hq
      simp [not_lt.2 hq.le]
  | some m =>
    obtain ⟨A, B, hL, hm, hB⟩ := split_of_getLast?_filter_le s.start hok.ordered hlast
    have hmA : m ∉ A := fun hmem =>
      (List.nodup_append.1 (hL ▸ hok.ordered.nodup)).2.2 m hmem m List.mem_cons_self rfl
    have hA : ∀ p ∈ A, s.end p ≤ s.start m := (pairwise_split (hL ▸ h.chain)).1
    simp only [Option.pure_def, Option.bind_some]
    by_cases hmr : s.end m < r.start
    · -- `m` ends before `r.start`: the loop starts from the node after it
      refine ⟨A ++ [m], B, ?_, by simp [hL], ?_, ?_, .inr ?_⟩
      · have hnext := nextNode_eq hok (x := m) (by simp [hL])
        rw [hL, succOf_append_cons hmA] at hnext
        rw [if_pos (show (s.r m).end < r.start from hmr)]
        exact hnext
      · intro p hp
        rcases List.mem_append.1 hp with hp | hp
        · exact (hA p hp).trans (hm.trans (by omega))
        · simp only [List.mem_singleton] at hp
          subst hp
          exact hmr.le
      · intro q hq
        have hqB : q ∈ B := List.mem_of_mem_head? hq
        exact ((hB q hqB).trans (h.nonempty q (by simp [hL, hqB]))).le
      · intro p hp
        have hmm := h.nonempty m (by simp [hL])
        rcases List.mem_append.1 hp with hp | hp
        · exact lt_of_le_of_lt (hA p hp) (hmm.trans hmr)
        · simp only [List.mem_singleton] at hp
          subst hp
          exact hmr
    · -- `m` reaches `r.start`: the loop starts from `m`
      refine ⟨A, m :: B, ?_, hL, fun p hp => (hA p hp).trans hm, ?_, .inl ⟨m, rfl, hm⟩⟩
      · simp [RmState.end] at hmr
        simp [not_lt.2 hmr]
      · intro q hq
        obtain rfl : m = q := by simpa using hq
        exact not_lt.1 hmr

/-- The first turn of the merge loop, on a node `q` that starts at or before `r.end`:
    the two writes to `q->r` give it the hull of its range and `r`, and the loop goes
    on from the successor of `q`. -/
theorem mergeLoop_first {s : RmState ν} {t : CTree ν} {P Q : List ν} {q : ν} {r : Range}
    {fuel : ℕ} (h : TreeOk s t) (ht : t.toList = P ++ q :: Q) (hq : (s.r q).start ≤ r.end) :
    mergeLoop r (fuel + 1) s (some q) none =
      mergeLoop r fuel (s.setR q ⟨min (s.r q).start r.start, max (s.r q).end r.end⟩) Q.head?
        (some q) := by
  have hqP : q ∉ P := fun hmem =>
    (List.nodup_append.1 (ht ▸ h.ordered.nodup)).2.2 q hmem q List.mem_cons_self rfl
  have hnext : rangemapNextNode s q = some Q.head? := by
    rw [nextNode_eq h (by simp [ht]), ht, succOf_append_cons hqP]
  simp only [mergeLoop, if_pos hq, hnext, Option.bind_eq_bind, Option.bind_some]
  congr 1
  by_cases h₁ : r.start < (s.r q).start
  · rw [if_pos h₁, min_eq_right h₁.le]
    by_cases h₂ : (s.r q).end < r.end
    · simp [h₂, max_eq_right h₂.le]
    · simp [h₂, max_eq_left (not_lt.1 h₂)]
  · rw [if_neg h₁, min_eq_left (not_lt.1 h₁)]
    by_cases h₂ : (s.r q).end < r.end
    · simp [h₂, max_eq_right h₂.le]
    · rw [if_neg h₂, max_eq_left (not_lt.1 h₂)]
      exact (RmState.setR_self s q).symm

theorem treeOk_of_agree {s s' : RmState ν} {t : CTree ν} (h : TreeOk s t) (ht : s'.t = s.t)
    (hag : ∀ x ∈ t.toList, s'.heap x = s.heap x ∧ s'.r x = s.r x) : TreeOk s' t := by
  have hkey : ∀ x ∈ t.toList, s'.start x = s.start x := fun x hx => by
    simp [RmState.start, (hag x hx).2]
  refine ⟨?_, ?_, h.balanced, h.rootBlack, by rw [ht]; exact h.count, rfl⟩
  · rw [ht]
    exact holds_frame h.holds fun x hx => (hag x hx).1
  · exact List.Pairwise.imp_of_mem (fun {x y} hx hy hxy => by rwa [hkey x hx, hkey y hy])
      h.ordered

theorem treeOk_setR {s : RmState ν} {t : CTree ν} {P Q : List ν} {q : ν} {v : Range}
    (h : TreeOk s t) (ht : t.toList = P ++ q :: Q) (hP : ∀ p ∈ P, s.start p < v.start)
    (hQ : ∀ x ∈ Q, v.start < s.start x) : TreeOk (s.setR q v) t := by
  have hnd := ht ▸ h.ordered.nodup
  have hqP : q ∉ P := fun hmem => (List.nodup_append.1 hnd).2.2 q hmem q List.mem_cons_self rfl
  have hqQ : q ∉ Q := (List.nodup_cons.1 (List.nodup_append.1 hnd).2.1).1
  have hkey : ∀ x, x ≠ q → (s.setR q v).start x = s.start x := fun x hx => by
    simp [RmState.start, RmState.setR_r_ne _ _ hx]
  have hord : (P ++ q :: Q).Pairwise fun a b => s.start a < s.start b := by
    have := h.ordered
    rwa [Ordered, ht] at this
  rw [List.pairwise_append, List.pairwise_cons] at hord
  refine ⟨h.holds, ?_, h.balanced, h.rootBlack, h.count, rfl⟩
  show (t.toList).Pairwise _
  rw [ht, List.pairwise_append, List.pairwise_cons]
  refine ⟨?_, ⟨fun x hx => ?_, ?_⟩, fun p hp y hy => ?_⟩
  · exact hord.1.imp_of_mem fun {x y} hx hy hxy => by
      rwa [hkey x (ne_of_mem_of_not_mem hx hqP), hkey y (ne_of_mem_of_not_mem hy hqP)]
  · rw [hkey x (ne_of_mem_of_not_mem hx hqQ)]
    simpa [RmState.start] using hQ x hx
  · exact hord.2.1.2.imp_of_mem fun {x y} hx hy hxy => by
      rwa [hkey x (ne_of_mem_of_not_mem hx hqQ), hkey y (ne_of_mem_of_not_mem hy hqQ)]
  · rw [hkey p (ne_of_mem_of_not_mem hp hqP)]
    rcases List.mem_cons.1 hy with rfl | hy
    · simpa [RmState.start] using hP p hp
    · rw [hkey y (ne_of_mem_of_not_mem hy hqQ)]
      exact hord.2.2 p hp y (List.mem_cons_of_mem _ hy)

/-- When the node `q` that the lookup finds starts at or before `r.end`, it takes the
    hull of `r` and of the nodes from it up to the last that starts at or before
    `r.end`, and those nodes leave the map. The range `r` may be empty: `q` is not. -/
theorem insertRange_merge {s : RmState ν} {t : CTree ν} {r : Range} {P Q : List ν} {q : ν}
    (h : WellFormed s t) (ht : t.toList = P ++ q :: Q)
    (hP : ∀ p ∈ P, s.end p ≤ r.start) (hqr : r.start ≤ s.end q) (hqs : s.start q ≤ r.end) :
    ∃ s' t', mergeLoop r (s.t.count + 1) s (some q) none = some (s', some q) ∧
      WellFormed s' t' ∧ covered s' t' = covered s t ∪ Set.Ico r.start r.end ∧
      ((s.start q ≤ r.start ∨ ∀ p ∈ P, s.end p < r.start) → NoAbut s t → NoAbut s' t') := by
  have hok := h.treeOk
  have hord : (P ++ q :: Q).Pairwise fun a b => s.start a < s.start b := by
    have := hok.ordered
    rwa [Ordered, ht] at this
  have hch : (P ++ q :: Q).Pairwise fun a b => s.end a ≤ s.start b := ht ▸ h.chain
  obtain ⟨hPq, hqQ⟩ := ordered_split hord
  obtain ⟨hPq', hqQ'⟩ := pairwise_split hch
  have hne : ∀ x ∈ t.toList, s.start x < s.end x := h.nonempty
  have hnd := ht ▸ hok.ordered.nodup
  have hqP : q ∉ P := fun hmem => (List.nodup_append.1 hnd).2.2 q hmem q List.mem_cons_self rfl
  have hqQn : q ∉ Q := (List.nodup_cons.1 (List.nodup_append.1 hnd).2.1).1
  -- the first turn gives `q` the hull of its range and `r`
  set a := min (s.start q) r.start with ha
  set b := max (s.end q) r.end with hb
  have hok₁ : TreeOk (s.setR q ⟨a, b⟩) t := by
    refine treeOk_setR hok ht (fun p hp => lt_min (hPq p hp) ?_) (fun x hx => ?_)
    · exact lt_of_lt_of_le (hne p (by simp [ht, hp])) (hP p hp)
    · exact lt_of_le_of_lt (min_le_left _ _) (hqQ x hx)
  have hlen : Q.length < s.t.count := by
    rw [h.count, size, ht]
    simp only [List.length_append, List.length_cons]
    omega
  obtain ⟨s', t', e, hok', ht', hR', hq'⟩ :=
    mergeLoop_merged r s.r Q hok₁ ht hlen fun x hx => RmState.setR_r_ne _ _ hx
  have hfirst : mergeLoop r (s.t.count + 1) s (some q) none =
      mergeLoop r s.t.count (s.setR q ⟨a, b⟩) Q.head? (some q) := mergeLoop_first hok ht hqs
  -- the nodes merged into `q`, and those that stay after it
  set D := Q.takeWhile fun x => (s.r x).start ≤ r.end with hD
  set Q' := Q.dropWhile fun x => (s.r x).start ≤ r.end with hQ'
  have hQ : Q = D ++ Q' := List.takeWhile_append_dropWhile.symm
  have hD_le : ∀ d ∈ D, s.start d ≤ r.end := fun d hd => by
    simpa [RmState.start] using List.mem_takeWhile_imp hd
  have hQ'_gt : ∀ x ∈ Q', r.end < s.start x := fun x hx =>
    lt_of_mem_dropWhile_le (k := r.end) (List.pairwise_append.1 hord).2.1.of_cons x hx
  have hqr' : s'.r q = ⟨a, mergedEnd s.r r Q b⟩ := by
    rw [hq']
    simp [RmState.end]
  have hR : ∀ x ∈ P ++ Q', s'.start x = s.start x ∧ s'.end x = s.end x := by
    intro x hx
    have hxq : x ≠ q := by
      rintro rfl
      rcases List.mem_append.1 hx with hx | hx
      · exact hqP hx
      · exact hqQn (List.dropWhile_sublist _ |>.subset hx)
    simp [RmState.start, RmState.end, hR' x hxq]
  have hsub : (P ++ Q').Sublist (P ++ q :: Q) :=
    ((List.dropWhile_sublist _).cons q).append_left P
  have hend : mergedEnd s.r r Q b = D.foldl (fun c d => max c (s.end d)) b := rfl
  refine ⟨s', t', hfirst.trans e, ⟨hok'.holds, hok'.balanced, hok'.rootBlack, hok'.count, ?_, ?_⟩,
    ?_, ?_⟩
  · -- every range is non-empty, the merged one reaching from `a` past `r.end`
    intro x hx
    rw [ht'] at hx
    by_cases hxq : x = q
    · subst hxq
      have hb' : b ≤ mergedEnd s.r r Q b := by rw [hend]; exact le_foldl_max _ _ _
      have hxne := hne x (by simp [ht])
      simp only [RmState.start, RmState.end, hqr']
      omega
    · have hx' : x ∈ P ++ Q' := by simpa [hxq] using hx
      rw [(hR x hx').1, (hR x hx').2]
      exact hne x (hsub.subset hx' |> fun h => ht ▸ h)
  · -- the merged node ends before every node that stays after it
    rw [ht']
    refine pairwise_insert_mid (hch.sublist hsub) (fun x hx y hy hxy => ?_) (fun p hp => ?_)
      (fun x hx => ?_)
    · rwa [(hR x hx).2, (hR y hy).1]
    · rw [(hR p (List.mem_append_left _ hp)).2]
      simp only [RmState.start, hqr']
      exact le_min (hPq' p hp) (hP p hp)
    · rw [(hR x (List.mem_append_right _ hx)).1]
      simp only [RmState.end, hqr', hend]
      refine (foldl_max_le_iff _).2 ⟨max_le (hqQ' x ?_) (hQ'_gt x hx).le, fun d hd => ?_⟩
      · exact (List.dropWhile_sublist _).subset hx
      · have := (List.pairwise_append.1 (hQ ▸ (List.pairwise_append.1 hch).2.1.of_cons)).2.2
        exact this d hd x hx
  · -- the merged node covers `q`, `r` and the nodes it took in
    have hab : a ≤ b :=
      le_trans (min_le_left _ _) (le_trans (hne q (by simp [ht])).le (le_max_left _ _))
    have hDQ : ∀ d ∈ D, d ∈ Q := fun d hd => List.takeWhile_sublist _ |>.subset hd
    have hcovq : Set.Ico a (mergedEnd s.r r Q b) =
        (Set.Ico (s.start q) (s.end q) ∪ Set.Ico r.start r.end) ∪
          Intervals.covered s.start s.end D := by
      rw [hend, Ico_foldl_max hab fun d hd => ⟨?_, ?_, ?_⟩, ha, hb, Set.Ico_union_Ico' hqr hqs]
      · exact le_trans (min_le_left _ _) (hqQ d (hDQ d hd)).le
      · exact le_trans (hD_le d hd) (le_max_right _ _)
      · exact (hne d (by simp [ht, hDQ d hd])).le
    have hRP : ∀ x ∈ P, s'.start x = s.start x ∧ s'.end x = s.end x :=
      fun x hx => hR x (List.mem_append_left _ hx)
    have hRQ : ∀ x ∈ Q', s'.start x = s.start x ∧ s'.end x = s.end x :=
      fun x hx => hR x (List.mem_append_right _ hx)
    have hq'' : Set.Ico (s'.start q) (s'.end q) = Set.Ico a (mergedEnd s.r r Q b) := by
      simp [RmState.start, RmState.end, hqr']
    unfold covered
    rw [ht', ht, covered_append, covered_append, covered_cons, covered_cons, covered_congr hRP,
      covered_congr hRQ, hq'', hcovq, hQ, covered_append]
    ext x
    simp only [Set.mem_union]
    tauto
  · -- a map whose nodes do not touch: `q` ends before the next node, and the nodes
    -- before it end before `r.start`
    intro hor hap
    have hap' : (P ++ q :: Q).Pairwise fun a b => s.end a < s.start b := ht ▸ hap
    obtain ⟨hPqa, hqQa⟩ := pairwise_split hap'
    unfold NoAbut Apart
    rw [ht']
    refine pairwise_insert_mid (hap'.sublist hsub) (fun x hx y hy hxy => ?_) (fun p hp => ?_)
      (fun x hx => ?_)
    · rwa [(hR x hx).2, (hR y hy).1]
    · rw [(hR p (List.mem_append_left _ hp)).2]
      simp only [RmState.start, hqr']
      refine lt_min (hPqa p hp) ?_
      rcases hor with hq | hall
      · exact lt_of_lt_of_le (hPqa p hp) hq
      · exact hall p hp
    · rw [(hR x (List.mem_append_right _ hx)).1]
      simp only [RmState.end, hqr', hend]
      refine (foldl_max_lt_iff _).2 ⟨max_lt (hqQa x ?_) (hQ'_gt x hx), fun d hd => ?_⟩
      · exact (List.dropWhile_sublist _).subset hx
      · have := (List.pairwise_append.1 (hQ ▸ (List.pairwise_append.1 hap').2.1.of_cons)).2.2
        exact this d hd x hx

theorem atOrNextLoop_spec {s : RmState ν} {t : CTree ν} (point : ℕ) (h : TreeOk s t) :
    ∀ (B : List ν) {A : List ν} {fuel : ℕ}, t.toList = A ++ B → B.length < fuel →
      ∃ c, atOrNextLoop s point fuel B.head? = some c ∧ ∀ y ∈ c, y ∈ t.toList ∧ point < s.end y := by
  intro B
  induction B with
  | nil =>
    rintro A (_ | fuel) ht hf
    · simp at hf
    · exact ⟨none, rfl, by simp⟩
  | cons x B ih =>
    rintro A (_ | fuel) ht hf
    · simp at hf
    have hxA : x ∉ A := fun hmem =>
      (List.nodup_append.1 (ht ▸ h.ordered.nodup)).2.2 x hmem x List.mem_cons_self rfl
    by_cases hx : (s.r x).end ≤ point
    · -- `x` ends at or before `point`: on to its successor
      have hnext : rangemapNextNode s x = some B.head? := by
        rw [nextNode_eq h (by simp [ht]), ht, succOf_append_cons hxA]
      obtain ⟨c, e, hc⟩ := ih (A := A ++ [x]) (by simp [ht]) (by simp at hf; omega)
      exact ⟨c, by simp [atOrNextLoop, hx, hnext, e], hc⟩
    · exact ⟨some x, by simp [atOrNextLoop, hx], fun y hy => by
        obtain rfl : x = y := by simpa using hy
        exact ⟨by simp [ht], lt_of_not_ge hx⟩⟩

theorem lookupAtOrNext_spec {s : RmState ν} {t : CTree ν} (point : ℕ) (h : TreeOk s t) :
    ∃ c, rangemapLookupAtOrNext s point = some c ∧ ∀ y ∈ c, y ∈ t.toList ∧ point < s.end y := by
  have hfuel : ∀ B : List ν, B.Sublist t.toList → B.length < s.t.count + 1 := fun B hB => by
    have := hB.length_le
    rw [h.count, size]
    omega
  unfold rangemapLookupAtOrNext
  cases hroot : s.t.root with
  | none => exact ⟨none, rfl, by simp⟩
  | some _ =>
    simp only [rbtreeLookupMaxLte_eq s.start h.holds.1 h.ordered h.count, Option.bind_eq_bind,
      Option.bind_some]
    cases hlast : (t.toList.filter fun y => s.start y ≤ point).getLast? with
    | none =>
      -- no node starts at or before `point`: from the first node on
      simp only [rbtreeFindFirst_eq h.holds.1 h.count, Option.bind_some]
      exact atOrNextLoop_spec point h t.toList (A := []) rfl (hfuel _ (List.Sublist.refl _))
    | some m =>
      obtain ⟨A, B, hL, -, -⟩ := split_of_getLast?_filter_le s.start h.ordered hlast
      simp only [Option.pure_def, Option.bind_some]
      exact atOrNextLoop_spec point h (m :: B) hL (hfuel _ (hL ▸ List.sublist_append_right A _))

theorem insertScan_of_empty {s : RmState ν} {t : CTree ν} {n : ν} {c : Option ν} {fuel : ℕ}
    (h : TreeOk s t) (hc : ∀ y ∈ c, y ∈ t.toList ∧ rangeSpan (rangeIntersection (s.r n) (s.r y)) = 0) :
    insertScan s n (fuel + 1) c = some true := by
  cases c with
  | none => rfl
  | some y =>
    obtain ⟨hy, h0⟩ := hc y rfl
    simp [insertScan, nextNode_eq h hy, h0]

/-- `rangemap_insert(rm, n)` of a node outside the map whose range meets no range of the map
    and whose start is no node's start: the scan finds no overlap, and the node goes into the
    tree between the nodes that start below it and those that start above it. The range of `n`
    may be empty. -/
theorem rangemapInsert_spec_of_ne {s : RmState ν} {t : CTree ν} {n : ν} (h : TreeOk s t)
    (hn : n ∉ t.toList) (hkey : ∀ y ∈ t.toList, s.start y ≠ s.start n)
    (hsep : ∀ y ∈ t.toList, s.end y ≤ s.start n ∨ s.end n ≤ s.start y) :
    ∃ s' t', rangemapInsert s n = some (s', true) ∧ TreeOk s' t' ∧
      t'.toList = t.toList.filter (fun y => s.start y < s.start n) ++ n ::
        t.toList.filter (fun y => s.start n < s.start y) ∧ s'.r = s.r := by
  have hok₁ : TreeOk { s with heap := initRbnode s.heap n } t :=
    treeOk_of_agree h rfl fun x hx => ⟨initRbnode_ne (ne_of_mem_of_not_mem hx hn), rfl⟩
  obtain ⟨c, hc, hcspec⟩ := lookupAtOrNext_spec (s.r n).start hok₁
  -- the node found ends after the start of `n`, so it lies after `n`
  have hscan : insertScan { s with heap := initRbnode s.heap n } n (s.t.count + 1) c = some true :=
    insertScan_of_empty hok₁ fun y hy => by
      obtain ⟨hyt, hlt⟩ := hcspec y hy
      refine ⟨hyt, rangeSpan_intersection_eq_zero ?_⟩
      rcases hsep y hyt with hle | hle
      · exact absurd hle (not_le.2 hlt)
      · exact .inl hle
  obtain ⟨H', T', t', res, e, hv', hins, -, -⟩ := insert_valid s.start h hn
  have hres : res = true := hins.1.2 fun y hy hk => hkey y hy hk
  subst hres
  refine ⟨{ s with heap := H', t := T' }, t', ?_, treeOk_of_valid hv', hins.2.1 rfl, rfl⟩
  have e' : rbtreeInsertNode s.start (initRbnode s.heap n) s.t n = some (H', T', true) := e
  simp only [rangemapInsert, hc, Option.bind_eq_bind, Option.bind_some, hscan, if_true]
  rw [show RmState.start { s with heap := initRbnode s.heap n } = s.start from rfl, e']
  rfl

/-- `rangemap_insert(rm, n)` of a node outside the map whose non-empty range meets no
    range of the map: no node shares its start, since that node would overlap it. -/
theorem rangemapInsert_spec {s : RmState ν} {t : CTree ν} {n : ν} (h : TreeOk s t)
    (hn : n ∉ t.toList) (hne : ∀ x ∈ t.toList, s.start x < s.end x) (hnr : s.start n < s.end n)
    (hsep : ∀ y ∈ t.toList, s.end y ≤ s.start n ∨ s.end n ≤ s.start y) :
    ∃ s' t', rangemapInsert s n = some (s', true) ∧ TreeOk s' t' ∧
      t'.toList = t.toList.filter (fun y => s.start y < s.start n) ++ n ::
        t.toList.filter (fun y => s.start n < s.start y) ∧ s'.r = s.r := by
  refine rangemapInsert_spec_of_ne h hn (fun y hy hk => ?_) hsep
  have hyne := hne y hy
  rcases hsep y hy with hle | hle <;> omega

/-- When the lookup leaves no node that starts at or before `r.end`, a fresh node `n`
    with range `r` goes in between the nodes that end before `r` and those that start
    after it. The range `r` may be empty; every other node keeps its non-empty range. -/
theorem insertRange_new {s : RmState ν} {t : CTree ν} {r : Range} {P Q : List ν} {n : ν}
    (h : WellFormed s t) (hr : r.start ≤ r.end) (ht : t.toList = P ++ Q) (hn : n ∉ t.toList)
    (hP : ∀ p ∈ P, s.end p < r.start) (hQ : ∀ q ∈ Q, r.end < s.start q) :
    ∃ s' t', rangemapInsert { s.setR n r with heap := initRbnode s.heap n } n = some (s', true) ∧
      TreeOk s' t' ∧ Chain s'.start s'.end t'.toList ∧
      (∀ x ∈ t'.toList, s'.start x < s'.end x ∨ (x = n ∧ s'.r x = r)) ∧
      covered s' t' = covered s t ∪ Set.Ico r.start r.end ∧ (NoAbut s t → NoAbut s' t') := by
  have hxn : ∀ x ∈ t.toList, x ≠ n := fun x hx => ne_of_mem_of_not_mem hx hn
  have hag : ∀ x ∈ t.toList, (initRbnode s.heap n) x = s.heap x ∧ (s.setR n r).r x = s.r x :=
    fun x hx => ⟨initRbnode_ne (hxn x hx), RmState.setR_r_ne _ _ (hxn x hx)⟩
  have hok₁ : TreeOk { s.setR n r with heap := initRbnode s.heap n } t :=
    treeOk_of_agree h.treeOk rfl hag
  have hkey : ∀ x ∈ t.toList, (s.setR n r).start x = s.start x ∧ (s.setR n r).end x = s.end x :=
    fun x hx => by simp [RmState.start, RmState.end, (hag x hx).2]
  have hnr : (s.setR n r).r n = r := RmState.setR_r_self _ _ _
  obtain ⟨s', t', e, hok', ht', hr'⟩ := rangemapInsert_spec_of_ne hok₁ hn
    (fun y hy => by
      -- the nodes of `P` start below `r`, those of `Q` above it
      show (s.setR n r).start y ≠ (s.setR n r).start n
      rw [(hkey y hy).1]
      simp only [RmState.start, hnr]
      rcases List.mem_append.1 (ht ▸ hy) with hy' | hy'
      · exact (lt_of_lt_of_le (h.nonempty y hy) (hP y hy').le).ne
      · exact (lt_of_le_of_lt hr (hQ y hy')).ne')
    (fun y hy => by
      show (s.setR n r).end y ≤ (s.setR n r).start n ∨ (s.setR n r).end n ≤ (s.setR n r).start y
      rw [(hkey y hy).1, (hkey y hy).2]
      simp only [RmState.start, RmState.end, hnr]
      rcases List.mem_append.1 (ht ▸ hy) with hy' | hy'
      · exact .inl (hP y hy').le
      · exact .inr (hQ y hy').le)
  -- the nodes below `r` are those of `P`, the nodes above it those of `Q`
  have hPlt : ∀ p ∈ P, s.start p < r.start := fun p hp =>
    lt_of_lt_of_le (h.nonempty p (by simp [ht, hp])) (hP p hp).le
  have hlo : t.toList.filter (fun y => (s.setR n r).start y < (s.setR n r).start n) = P := by
    rw [ht, List.filter_append, List.filter_eq_self.2, List.filter_eq_nil_iff.2, List.append_nil]
    · intro q hq
      rw [(hkey q (by simp [ht, hq])).1]
      simpa [RmState.start, hnr] using (lt_of_le_of_lt hr (hQ q hq)).le
    · intro p hp
      rw [(hkey p (by simp [ht, hp])).1]
      simpa [RmState.start, hnr] using hPlt p hp
  have hhi : t.toList.filter (fun y => (s.setR n r).start n < (s.setR n r).start y) = Q := by
    rw [ht, List.filter_append, List.filter_eq_nil_iff.2, List.filter_eq_self.2, List.nil_append]
    · intro q hq
      rw [(hkey q (by simp [ht, hq])).1]
      simpa [RmState.start, hnr] using lt_of_le_of_lt hr (hQ q hq)
    · intro p hp
      rw [(hkey p (by simp [ht, hp])).1]
      simpa [RmState.start, hnr] using (hPlt p hp).le
  have ht'' : t'.toList = t.toList.filter (fun y => (s.setR n r).start y < (s.setR n r).start n) ++
      n :: t.toList.filter (fun y => (s.setR n r).start n < (s.setR n r).start y) := ht'
  rw [hlo, hhi] at ht''
  clear ht'
  have hR : ∀ x ∈ P ++ Q, s'.start x = s.start x ∧ s'.end x = s.end x := fun x hx => by
    have := hkey x (ht ▸ hx)
    simpa [RmState.start, RmState.end, hr'] using this
  have hn' : s'.r n = r := by rw [hr', hnr]
  refine ⟨s', t', e, hok', ?_, fun x hx => ?_, ?_, ?_⟩
  · rw [ht'']
    refine pairwise_insert_mid (ht ▸ h.chain) (fun x hx y hy hxy => ?_) (fun p hp => ?_)
      (fun q hq => ?_)
    · rwa [(hR x hx).2, (hR y hy).1]
    · rw [(hR p (List.mem_append_left _ hp)).2]
      simpa [RmState.start, hn'] using (hP p hp).le
    · rw [(hR q (List.mem_append_right _ hq)).1]
      simpa [RmState.end, hn'] using (hQ q hq).le
  · rw [ht''] at hx
    by_cases hx' : x = n
    · exact .inr ⟨hx', hx' ▸ hn'⟩
    · have hx'' : x ∈ P ++ Q := by simpa [hx'] using hx
      rw [(hR x hx'').1, (hR x hx'').2]
      exact .inl (h.nonempty x (ht ▸ hx''))
  · have hRP : ∀ x ∈ P, s'.start x = s.start x ∧ s'.end x = s.end x :=
      fun x hx => hR x (List.mem_append_left _ hx)
    have hRQ : ∀ x ∈ Q, s'.start x = s.start x ∧ s'.end x = s.end x :=
      fun x hx => hR x (List.mem_append_right _ hx)
    have hIco : Set.Ico (s'.start n) (s'.end n) = Set.Ico r.start r.end := by
      simp [RmState.start, RmState.end, hn']
    unfold covered
    rw [ht'', ht, covered_append, covered_append, covered_cons, covered_congr hRP, covered_congr hRQ,
      hIco]
    ext x
    simp only [Set.mem_union]
    tauto
  · intro hap
    unfold NoAbut Apart at hap ⊢
    rw [ht'']
    rw [ht] at hap
    refine pairwise_insert_mid hap (fun x hx y hy hxy => ?_) (fun p hp => ?_)
      (fun q hq => ?_)
    · rwa [(hR x hx).2, (hR y hy).1]
    · rw [(hR p (List.mem_append_left _ hp)).2]
      simpa [RmState.start, hn'] using hP p hp
    · rw [(hR q (List.mem_append_right _ hq)).1]
      simpa [RmState.end, hn'] using hQ q hq

theorem mergeLoop_stop {s : RmState ν} {r : Range} {c : Option ν} {fuel : ℕ}
    (hc : ∀ q ∈ c, r.end < (s.r q).start) : mergeLoop r (fuel + 1) s c none = some (s, none) := by
  cases c with
  | none => rfl
  | some q => simp [mergeLoop, not_le.2 (hc q rfl)]

/-- `rangemap_insert_range(rm, r)` on a well-formed map and a range that is not inverted, where
    the allocation `fresh` gives a node outside the map or fails. The call fails only when the
    allocation is needed and fails, and then leaves the map as it was. When it succeeds the tree
    is ordered and its ranges follow each other, every range is non-empty but that of the fresh
    node, which is `r`, and the map covers exactly the points it covered before and those of `r`;
    if no two of its ranges touched before, none touch after. -/
theorem insertRange_le {s : RmState ν} {t : CTree ν} {r : Range} {fresh : Option ν}
    (h : WellFormed s t) (hr : r.start ≤ r.end) (hfresh : ∀ n ∈ fresh, n ∉ t.toList) :
    ∃ s' b, rangemapInsertRange s r fresh = some (s', b) ∧
      (b = true → ∃ t', TreeOk s' t' ∧ Chain s'.start s'.end t'.toList ∧
        (∀ x ∈ t'.toList, s'.start x < s'.end x ∨ (x ∈ fresh ∧ s'.r x = r)) ∧
        covered s' t' = covered s t ∪ Set.Ico r.start r.end ∧ (NoAbut s t → NoAbut s' t')) ∧
      (b = false → fresh = none ∧ s' = s) := by
  obtain ⟨P, Q, hstart, ht, hP, hQh, hor⟩ := insertRangeStart_spec r h
  have hQs : (Q.Pairwise fun a b => s.start a < s.start b) := by
    have := h.treeOk.ordered
    rw [Ordered, ht] at this
    exact (List.pairwise_append.1 this).2.1
  simp only [rangemapInsertRange, hstart, Option.bind_eq_bind, Option.bind_some]
  by_cases hmerge : ∃ q ∈ Q.head?, s.start q ≤ r.end
  · -- the node found meets `r` or touches it: it takes `r` in
    obtain ⟨q, hq, hqs⟩ := hmerge
    obtain ⟨Q, rfl⟩ : ∃ Q', Q = q :: Q' := by
      cases Q with
      | nil => simp at hq
      | cons q' Q' => exact ⟨Q', by simpa using hq⟩
    obtain ⟨s', t', e, hwf, hcov, hap⟩ := insertRange_merge h ht hP (hQh q rfl) hqs
    refine ⟨s', true, by simp [e], fun _ => ⟨t', hwf.treeOk, hwf.chain,
      fun x hx => .inl (hwf.nonempty x hx), hcov, hap (by simpa using hor)⟩, by simp⟩
  · -- every node left starts after `r.end`: nothing is merged
    simp only [not_exists, not_and, not_le] at hmerge
    have hQ : ∀ q ∈ Q, r.end < s.start q := by
      cases Q with
      | nil => simp
      | cons q Q =>
        intro x hx
        rcases List.mem_cons.1 hx with rfl | hx
        · exact hmerge x rfl
        · exact (hmerge q rfl).trans ((List.pairwise_cons.1 hQs).1 x hx)
    -- so the nodes before it end strictly before `r.start`
    have hP' : ∀ p ∈ P, s.end p < r.start := by
      rcases hor with ⟨q, hq, hqs⟩ | hall
      · exact absurd (le_trans hqs hr) (not_le.2 (hmerge q hq))
      · exact hall
    rw [mergeLoop_stop fun q hq => hmerge q hq]
    cases fresh with
    | none => exact ⟨s, false, rfl, by simp, fun _ => ⟨rfl, rfl⟩⟩
    | some n =>
      obtain ⟨s', t', e, hok, hch, hne, hcov, hap⟩ := insertRange_new h hr ht (hfresh n rfl) hP' hQ
      have e' : rangemapInsert { heap := initRbnode s.heap n, r := (s.setR n r).r, t := s.t } n =
          some (s', true) := e
      refine ⟨s', true, ?_, fun _ => ⟨t', hok, hch, fun x hx => ?_, hcov, hap⟩, by simp⟩
      · simp only [Option.bind_some, RmState.setR_t]
        rw [e']
        rfl
      · rcases hne x hx with hlt | ⟨rfl, hxr⟩
        · exact .inl hlt
        · exact .inr ⟨rfl, hxr⟩

/-- `rangemap_insert_range(rm, r)` on a well-formed map and a non-empty range, where the
    allocation `fresh` gives a node outside the map or fails. The call fails only when the
    allocation is needed and fails, and then leaves the map as it was. When it succeeds
    the map is well formed, covers exactly the points it covered before and those of `r`,
    and if no two of its ranges touched before, none touch after. -/
theorem insertRange_spec {s : RmState ν} {t : CTree ν} {r : Range} {fresh : Option ν}
    (h : WellFormed s t) (hr : r.start < r.end) (hfresh : ∀ n ∈ fresh, n ∉ t.toList) :
    ∃ s' b, rangemapInsertRange s r fresh = some (s', b) ∧
      (b = true → ∃ t', WellFormed s' t' ∧ covered s' t' = covered s t ∪ Set.Ico r.start r.end ∧
        (NoAbut s t → NoAbut s' t')) ∧
      (b = false → fresh = none ∧ s' = s) := by
  obtain ⟨s', b, e, htrue, hfalse⟩ := insertRange_le h hr.le hfresh
  refine ⟨s', b, e, fun hb => ?_, hfalse⟩
  obtain ⟨t', hok, hch, hne, hcov, hap⟩ := htrue hb
  -- the fresh node's range is `r`, which is not empty
  refine ⟨t', ⟨hok.holds, hok.balanced, hok.rootBlack, hok.count, fun x hx => ?_, hch⟩, hcov, hap⟩
  rcases hne x hx with hlt | ⟨-, hxr⟩
  · exact hlt
  · simpa [RmState.start, RmState.end, hxr] using hr

/-- `rangemap_insert_range(rm, r)` on a well-formed map and an empty range `[a, a)`: it fails
    only when it needs its node allocation and that fails, leaving the map as it was. When it
    succeeds the map covers what it covered before; a node that the range touches takes it in,
    else the fresh node goes in with the empty range, the one empty range of the map. -/
theorem insertRange_empty {s : RmState ν} {t : CTree ν} {r : Range} {fresh : Option ν}
    (h : WellFormed s t) (hr : r.start = r.end) (hfresh : ∀ n ∈ fresh, n ∉ t.toList) :
    ∃ s' b, rangemapInsertRange s r fresh = some (s', b) ∧
      (b = true → ∃ t', TreeOk s' t' ∧ Chain s'.start s'.end t'.toList ∧
        (∀ x ∈ t'.toList, s'.start x < s'.end x ∨ (x ∈ fresh ∧ s'.start x = s'.end x)) ∧
        covered s' t' = covered s t) ∧
      (b = false → fresh = none ∧ s' = s) := by
  obtain ⟨s', b, e, htrue, hfalse⟩ := insertRange_le h hr.le hfresh
  refine ⟨s', b, e, fun hb => ?_, hfalse⟩
  obtain ⟨t', hok, hch, hne, hcov, -⟩ := htrue hb
  refine ⟨t', hok, hch, fun x hx => ?_, by rw [hcov, hr, Set.Ico_self, Set.union_empty]⟩
  rcases hne x hx with hlt | ⟨hxf, hxr⟩
  · exact .inl hlt
  · exact .inr ⟨hxf, by simp [RmState.start, RmState.end, hxr, hr]⟩

/-- `rangemap_insert_range(rm, r)` meets `insertRange_spec`. -/
theorem rangemap_insert_range_spec {s : RmState ν} {t : CTree ν} {r : Range} {fresh : Option ν}
    (h : WellFormed s t) (hr : r.start < r.end) (hfresh : ∀ n ∈ fresh, n ∉ t.toList) :
    ∃ s' b, rangemapInsertRange s r fresh = some (s', b) ∧
      (b = true → ∃ t', WellFormed s' t' ∧ covered s' t' = covered s t ∪ Set.Ico r.start r.end ∧
        (NoAbut s t → NoAbut s' t')) ∧
      (b = false → fresh = none ∧ s' = s) :=
  insertRange_spec h hr hfresh

/-- A map of one node, `0`, with range `[0, 1)`. -/
def oneRangeMap : RmState ℕ where
  heap := fun _ => ⟨none, .black, none, none⟩
  r := fun _ => ⟨0, 1⟩
  t := { root := some 0, count := 1 }

theorem oneRangeMap_wellFormed : WellFormed oneRangeMap (.node .black .nil 0 .nil) :=
  ⟨⟨⟨rfl, rfl, rfl, rfl⟩, ⟨rfl, trivial, trivial⟩⟩, ⟨1, by simp⟩, rfl, rfl,
    by simp [oneRangeMap, RmState.start, RmState.end], by simp [Chain]⟩

/-- The range `[1, 2)` that touches the one range of `oneRangeMap`, merged into it. -/
theorem rangemap_insert_range_spec_touching :
    WellFormed oneRangeMap (.node .black .nil 0 .nil) ∧ (1 : ℕ) < 2 ∧
      (∀ n ∈ some 1, n ∉ (CTree.node .black .nil 0 .nil).toList) ∧
      ∃ s' b, rangemapInsertRange oneRangeMap ⟨1, 2⟩ (some 1) = some (s', b) ∧
        (b = true → ∃ t', WellFormed s' t' ∧
          covered s' t' = covered oneRangeMap (.node .black .nil 0 .nil) ∪ Set.Ico 1 2 ∧
          (NoAbut oneRangeMap (.node .black .nil 0 .nil) → NoAbut s' t')) ∧
        (b = false → some 1 = none ∧ s' = oneRangeMap) :=
  have hwf := oneRangeMap_wellFormed
  have hr : (⟨1, 2⟩ : Range).start < (⟨1, 2⟩ : Range).end := by decide
  have hfresh : ∀ n ∈ some 1, n ∉ (CTree.node .black .nil 0 .nil).toList := by simp
  ⟨hwf, hr, hfresh, rangemap_insert_range_spec hwf hr hfresh⟩

end Nanos.RangemapMerge
