import Nanos.Pqueue
import Nanos.HeapOrder
import Nanos.Transition

set_option autoImplicit false

/-!
# `runtime/pqueue.c`: the heap order

What a pqueue is for: `pqueue_peek` and `pqueue_pop` give a pointer that no pointer of the queue
sorts after. That rests on the heap order `Ordered`, which every call keeps when the comparator
is a strict weak order, as the kernel's comparators are (`isStrictWeakOrder_key`: `timer_compare`,
`sched_sort` and `tracelog_entry_compare` compare a key with `>`). The sifts are those of
`HeapOrder`, read on the body through `node`: `heal_down` is a sift down that swaps with the child
no sibling sorts after, and stops within its fuel (`healDownLoop_ordered`); `heal_up` and
`add_pqueue` are sifts up (`healUpLoop_ordered`); `pqueue_reorder` is Floyd's construction, a
sift down from every inner node, last first.

`pqueue_remove_at` is called with an offset within the body (`Allowed`): by `pqueue_remove` and by
the scheduler, which walks the body with `pqueue_peek_at`.
-/

namespace Nanos.Pqueue

open HeapOrder

/-- The comparator as a relation: `sort a b` is `a` sorting before `b`, so nearer the leaves. -/
def Before (sort : ℕ → ℕ → Bool) (a b : ℕ) : Prop := sort a b = true

/-- The pointer at node `i`, from 1, as the heap functions read it: `vector_get(body, i - 1)`. -/
def node (body : List ℕ) (i : ℕ) : ℕ := vectorGet body (i - 1)

section Calls
variable (sort : ℕ → ℕ → Bool)

/-- The calls as the kernel makes them: `pqueue_remove_at` of an offset within the body. -/
def Allowed (body : List ℕ) : Op → Prop
  | .removeAt i => i < body.length
  | _ => True

instance (body : List ℕ) (op : Op) : Decidable (Allowed body op) :=
  match op with
  | .removeAt i => inferInstanceAs (Decidable (i < body.length))
  | .insert _ | .pop | .remove _ | .reorder => isTrue trivial

/-- The loop with which `print_tuple_internal` empties its queue,
    `while ((p = pqueue_pop(pq)) != INVALID_ADDRESS)`: the pointers in the order popped. A pop
    takes a pointer out, so the length of the body is enough fuel. -/
def popLoop : ℕ → List ℕ → List ℕ
  | 0, _ => []
  | fuel + 1, body =>
    match pqueuePop sort body with
    | (some p, rest) => p :: popLoop fuel rest
    | (none, _) => []

/-- The queue of `print_tuple_internal`: the entry pointers inserted one by one into an empty
    queue, then popped until it is empty. -/
def printTupleOrder (ptrs : List ℕ) : List ℕ :=
  let body := ptrs.foldl (pqueueInsert sort) []
  popLoop sort body.length body

end Calls

/-- The comparators of the kernel's queues, `a > b` on a key of the pointers, are strict weak
    orders. -/
theorem isStrictWeakOrder_key (key : ℕ → ℕ) :
    IsStrictWeakOrder ℕ (Before fun a b => decide (key b < key a)) where
  irrefl a := by simp [Before]
  trans a b c := by
    simp only [Before, decide_eq_true_eq]
    omega
  incomp_trans a b c := by
    simp only [Before, decide_eq_true_eq]
    omega

/-! ## The body read as a heap -/

section Nodes

theorem node_swap (body : List ℕ) {x y : ℕ} (hx : 1 ≤ x) (hxn : x ≤ body.length) (hy : 1 ≤ y)
    (hyn : y ≤ body.length) {i : ℕ} (hi : 1 ≤ i) :
    node (swap body x y) i = exchange (node body) x y i := by
  simp only [node, swap, vectorGet, exchange, Function.update_apply, List.getD_eq_getElem?_getD,
    List.getElem?_set]
  split_ifs <;> simp_all <;> omega

theorem node_set (body : List ℕ) {j : ℕ} (hj : j < body.length) (v : ℕ) {i : ℕ} (hi : 1 ≤ i) :
    node (body.set j v) i = Function.update (node body) (j + 1) v i := by
  simp only [node, vectorGet, List.getD_eq_getElem?_getD, List.getElem?_set]
  by_cases h : i = j + 1
  · subst h
    simp [hj]
  · rw [Function.update_of_ne h, if_neg (by omega)]
    rfl

theorem node_concat (body : List ℕ) (v : ℕ) {i : ℕ} (hi : 1 ≤ i) :
    node (body ++ [v]) i = Function.update (node body) (body.length + 1) v i := by
  simp only [node, vectorGet, List.getD_eq_getElem?_getD, List.getElem?_append]
  by_cases h : i = body.length + 1
  · subst h
    simp
  · rw [Function.update_of_ne h]
    split_ifs with hl
    · rfl
    · -- past the end of both
      rw [List.getElem?_singleton, if_neg (by omega)]
      simp [node, vectorGet, List.getD_eq_getElem?_getD, List.getElem?_eq_none (show body.length ≤ i - 1 by omega)]

theorem node_concat_of_le (body : List ℕ) (v : ℕ) {i : ℕ} (hi : 1 ≤ i) (hin : i ≤ body.length) :
    node (body ++ [v]) i = node body i := by
  rw [node_concat body v hi, Function.update_of_ne (by omega)]

end Nodes

section Order
variable (sort : ℕ → ℕ → Bool)

theorem ordered_iff (body : List ℕ) :
    Ordered sort body ↔ OrderedFrom (Before sort) body.length 1 (node body) := by
  constructor
  · intro h i hi hin _
    have := h i (by omega) hi
    simpa [qcompare, node, Before] using this
  · intro h i hin hi
    have := h i hi (by omega) (by omega)
    simpa [qcompare, node, Before] using this

theorem orderedFrom_of_concat {b : List ℕ} {n : ℕ} (h : Ordered sort (b ++ [n])) :
    OrderedFrom (Before sort) b.length 1 (node b) := by
  have h' := ((ordered_iff sort _).mp h).mono_size (m := b.length) (by simp)
  exact h'.congr fun i hi hin => node_concat_of_le b n hi hin

@[simp] theorem length_healDownLoop (last fuel : ℕ) (body : List ℕ) (w : ℕ) :
    (healDownLoop sort last fuel body w).length = body.length := by
  induction fuel generalizing body w with
  | zero => rfl
  | succ fuel ih =>
    simp only [healDownLoop, shiftLeft_one]
    split_ifs <;> simp [ih]

@[simp] theorem length_healUpLoop (fuel : ℕ) (body : List ℕ) (w : ℕ) :
    (healUpLoop sort fuel body w).length = body.length := by
  induction fuel generalizing body w with
  | zero => rfl
  | succ fuel ih =>
    simp only [healUpLoop]
    split_ifs <;> simp [ih]

@[simp] theorem length_healDown (body : List ℕ) (w : ℕ) :
    (healDown sort body w).length = body.length :=
  length_healDownLoop sort _ _ body w

theorem lt_mul_two_pow (n : ℕ) {w : ℕ} (hw : 1 ≤ w) : n < w * 2 ^ (n + 1) := by
  have h1 : n < 2 ^ n := Nat.lt_two_pow_self
  have h2 : 2 ^ n ≤ 2 ^ (n + 1) := Nat.pow_le_pow_right (by omega) (by omega)
  have h3 : 2 ^ (n + 1) ≤ w * 2 ^ (n + 1) := Nat.le_mul_of_pos_left _ hw
  omega

theorem qcompare_set_parent (b : List ℕ) {i : ℕ} (hib : i < b.length) (n : ℕ) (hi : 1 ≤ i) :
    qcompare sort (b.set i n) ((i + 1) >>> 1) (i + 1) = sort (node b ((i + 1) / 2)) n := by
  have h : qcompare sort (b.set i n) ((i + 1) >>> 1) (i + 1) =
      sort (node (b.set i n) ((i + 1) / 2)) (node (b.set i n) (i + 1)) := by
    simp only [qcompare, shiftRight_one, node, Nat.add_sub_cancel]
  rw [h, node_set b hib n (by omega), node_set b hib n (by omega), Function.update_self,
    Function.update_of_ne (by omega)]

section Weak
variable [IsStrictWeakOrder ℕ (Before sort)]

/-- The child `heal_down` picks, the right one when the left one sorts before it, is a child
    that no child sorts after. -/
theorem larger_child (body : List ℕ) {w c : ℕ} (hin : 2 * w ≤ body.length)
    (hc : (if 2 * w < body.length ∧ qcompare sort body (2 * w) (2 * w + 1) = true
      then 2 * w + 1 else 2 * w) = c) :
    c / 2 = w ∧ c ≤ body.length ∧
      ∀ s, 2 ≤ s → s ≤ body.length → s / 2 = w → ¬ Before sort (node body c) (node body s) := by
  subst hc
  split_ifs with hr
  · refine ⟨by omega, by omega, fun s _ _ hs => ?_⟩
    rcases (show s = 2 * w ∨ s = 2 * w + 1 by omega) with rfl | rfl
    · exact not_rel_of_rel (show Before sort (node body (2 * w)) (node body (2 * w + 1)) from hr.2)
    · exact Std.Irrefl.irrefl _
  · refine ⟨by omega, hin, fun s _ hsn hs => ?_⟩
    rcases (show s = 2 * w ∨ s = 2 * w + 1 by omega) with rfl | rfl
    · exact Std.Irrefl.irrefl _
    · -- the right child exists, and the left one does not sort before it
      intro hlt
      exact hr ⟨by omega, hlt⟩

/-- `heal_down` sifts down from `w` and stops within its fuel: each round at least doubles the
    node, and the loop ends once `w` has no child. The induction is on the fuel, the body and
    the node changing with each swap. -/
theorem healDownLoop_ordered (fuel : ℕ) (body : List ℕ) {k w : ℕ} (hk : 1 ≤ k) (hkw : k ≤ w)
    (hf : body.length < w * 2 ^ (fuel + 1))
    (o : DownOrder (Before sort) body.length k (node body) w) :
    OrderedFrom (Before sort) body.length k (node (healDownLoop sort body.length fuel body w)) := by
  induction fuel generalizing body w with
  | zero =>
    -- the bound leaves `w` without a child
    rw [Nat.zero_add, Nat.pow_one] at hf
    exact o.finish fun s _ hsn hsw => absurd hsw (by omega)
  | succ fuel ih =>
    simp only [healDownLoop, shiftLeft_one]
    split
    · rename_i hin
      generalize hc : (if 2 * w < body.length ∧ qcompare sort body (2 * w) (2 * w + 1) = true
        then 2 * w + 1 else 2 * w) = c
      obtain ⟨hcw, hcn, hmax⟩ := larger_child sort body hin hc
      split
      · rename_i hlt
        have o' : DownOrder (Before sort) (swap body w c).length k (node (swap body w c)) c := by
          rw [length_swap]
          exact (o.exchange hk hkw hcw hcn hmax hlt).congr hk fun i hi =>
            (node_swap body (by omega) (by omega) (by omega) hcn hi).symm
        have hf' : (swap body w c).length < c * 2 ^ (fuel + 1) := by
          have : w * 2 ^ (fuel + 1 + 1) ≤ c * 2 ^ (fuel + 1) := by
            rw [Nat.pow_succ, Nat.mul_comm (2 ^ (fuel + 1)) 2, ← Nat.mul_assoc]
            exact Nat.mul_le_mul_right _ (by omega)
          rw [length_swap]
          omega
        have := ih (swap body w c) (by omega) hf' o'
        rwa [length_swap] at this
      · rename_i hge
        exact o.finish_of_max hmax hge
    · rename_i hout
      exact o.finish fun s _ hsn hsw => absurd hsw (by omega)

/-- `heal_up` sifts up from `w` and stops within its fuel: each round halves the node, and the
    loop ends at the root. -/
theorem healUpLoop_ordered (fuel : ℕ) (body : List ℕ) {w : ℕ} (hw : 1 ≤ w) (hwn : w ≤ body.length)
    (hf : w ≤ fuel + 1) (o : UpOrder (Before sort) body.length (node body) w) :
    OrderedFrom (Before sort) body.length 1 (node (healUpLoop sort fuel body w)) := by
  induction fuel generalizing body w with
  | zero => exact o.finish fun h2 => absurd h2 (by omega)
  | succ fuel ih =>
    simp only [healUpLoop, shiftRight_one]
    split
    · rename_i h
      have o' : UpOrder (Before sort) (swap body (w / 2) w).length (node (swap body (w / 2) w))
          (w / 2) := by
        rw [length_swap]
        exact (o.exchange (by omega) hwn h.2).congr (by omega) fun i hi =>
          (node_swap body (by omega) (by omega) (by omega) hwn hi).symm
      have := ih (swap body (w / 2) w) (by omega) (by rw [length_swap]; omega) (by omega) o'
      rwa [length_swap] at this
    · rename_i h
      exact o.finish fun h2 _ hlt => h ⟨by omega, hlt⟩

/-! ## The calls keep the heap order -/

theorem pqueueInsert_ordered {body : List ℕ} (h : Ordered sort body) (v : ℕ) :
    Ordered sort (pqueueInsert sort body v) := by
  have hb := (ordered_iff sort body).mp h
  -- the pushed pointer stands at the node after the last, and is sifted up from there
  have o : UpOrder (Before sort) (body ++ [v]).length (node (body ++ [v])) (body ++ [v]).length := by
    have hu := UpOrder.push (hb.congr (g := Function.update (node body) (body.length + 1) v)
      fun i _ hin => (Function.update_of_ne (by omega) _ _).symm)
    rw [List.length_append, List.length_singleton]
    exact hu.congr (by omega) fun i hi => (node_concat body v hi).symm
  simp only [pqueueInsert, addPqueue, addPqueueLoop_eq]
  rw [ordered_iff, length_healUpLoop]
  exact healUpLoop_ordered sort _ _ (by simp) (Nat.le_refl _) (by omega) o

theorem pqueuePop_ordered {body : List ℕ} (h : Ordered sort body) :
    Ordered sort (pqueuePop sort body).2 := by
  rcases body.eq_nil_or_concat' with rfl | ⟨b, n, rfl⟩
  · simpa [pqueuePop] using h
  have hb := orderedFrom_of_concat sort h
  rw [pqueuePop, if_pos (by simp)]
  simp only [vectorPop_concat]
  split
  · -- the last pointer moves to the root and is sifted down from there
    rename_i hpeek
    have hb0 : 0 < b.length := by
      rcases b with _ | ⟨x, b⟩
      · simp [vectorPeek] at hpeek
      · simp
    have o : DownOrder (Before sort) (b.set 0 n).length 1 (node (b.set 0 n)) 1 := by
      rw [List.length_set]
      exact (DownOrder.of_update hb n (Nat.le_refl _) fun h2 => absurd h2 (by omega)).congr (Nat.le_refl _)
        fun i hi => (node_set b hb0 n hi).symm
    rw [ordered_iff, healDown, length_healDownLoop]
    exact healDownLoop_ordered sort _ _ (Nat.le_refl _) (Nat.le_refl _) (lt_mul_two_pow _ (Nat.le_refl _)) o
  · exact (ordered_iff sort b).mpr hb

theorem pqueueRemoveAt_ordered {body : List ℕ} (h : Ordered sort body) {i : ℕ}
    (hi : i < body.length) : Ordered sort (pqueueRemoveAt sort body i) := by
  obtain ⟨b, n, rfl⟩ := exists_eq_concat body (by omega)
  have hb := orderedFrom_of_concat sort h
  simp only [List.length_append, List.length_singleton] at hi
  simp only [pqueueRemoveAt, vectorPop_concat]
  split
  · -- an offset before the last: the last pointer fills it and heals up or down
    rename_i hne
    have hib : i < b.length := by omega
    split
    · rename_i hup
      have hlt : Before sort (node b ((i + 1) / 2)) n := by
        rw [Before, ← qcompare_set_parent sort b hib n (by omega)]
        exact hup.2
      have o : UpOrder (Before sort) (b.set i n).length (node (b.set i n)) (i + 1) := by
        rw [List.length_set]
        exact (UpOrder.of_update hb n (by omega) hlt).congr (by omega)
          fun j hj => (node_set b hib n hj).symm
      rw [ordered_iff, healUp, length_healUpLoop]
      exact healUpLoop_ordered sort _ _ (by omega) (by rw [List.length_set]; omega) (by omega) o
    · rename_i hdown
      have habove : 2 ≤ i + 1 → ¬ Before sort (node b ((i + 1) / 2)) n := by
        intro h2 hlt
        rw [Before, ← qcompare_set_parent sort b hib n (by omega)] at hlt
        exact hdown ⟨by omega, hlt⟩
      have o : DownOrder (Before sort) (b.set i n).length 1 (node (b.set i n)) (i + 1) := by
        rw [List.length_set]
        exact (DownOrder.of_update hb n (by omega) habove).congr (Nat.le_refl _)
          fun j hj => (node_set b hib n hj).symm
      rw [ordered_iff, healDown, length_healDownLoop]
      exact healDownLoop_ordered sort _ _ (Nat.le_refl _) (by omega) (lt_mul_two_pow _ (by omega)) o
  · -- the last offset: the pop is the whole removal
    exact (ordered_iff sort b).mpr hb

theorem pqueueRemove_ordered {body : List ℕ} (h : Ordered sort body) (v : ℕ) :
    Ordered sort (pqueueRemove sort body v).2 := by
  cases hv : body.idxOf? v with
  | none => simpa [pqueueRemove, hv] using h
  | some i =>
    obtain ⟨hi, -, -⟩ := List.idxOf?_eq_some_iff.mp hv
    simpa [pqueueRemove, hv] using pqueueRemoveAt_ordered sort h hi

/-- Floyd's construction: `heal_down` from the node `i`, then from every node before it, orders
    a body whose edges below `i` are in order. -/
theorem reorderLoop_ordered (i : ℕ) (body : List ℕ)
    (h : OrderedFrom (Before sort) body.length (i + 1) (node body)) :
    OrderedFrom (Before sort) body.length 1 (node (reorderLoop sort i body)) := by
  induction i generalizing body with
  | zero => exact h
  | succ i ih =>
    have hd : OrderedFrom (Before sort) (healDown sort body (i + 1)).length (i + 1)
        (node (healDown sort body (i + 1))) := by
      rw [length_healDown]
      exact healDownLoop_ordered sort _ _ (by omega) (Nat.le_refl _) (lt_mul_two_pow _ (by omega))
        (DownOrder.start h (by omega))
    have := ih _ hd
    rwa [length_healDown] at this

theorem pqueueReorder_ordered (body : List ℕ) : Ordered sort (pqueueReorder sort body) := by
  rw [ordered_iff, pqueueReorder]
  have hl := (pqueueReorder_perm sort body).length_eq
  rw [pqueueReorder] at hl
  rw [hl]
  exact reorderLoop_ordered sort (body.length / 2) body (orderedFrom_of_half_lt (by omega))

theorem step_ordered {body : List ℕ} (h : Ordered sort body) {op : Op} (hop : Allowed body op) :
    Ordered sort (step sort body op) := by
  cases op with
  | insert v => exact pqueueInsert_ordered sort h v
  | pop => exact pqueuePop_ordered sort h
  | remove v => exact pqueueRemove_ordered sort h v
  | removeAt i => exact pqueueRemoveAt_ordered sort h hop
  | reorder => exact pqueueReorder_ordered sort body

theorem ordered_root {body : List ℕ} (h : Ordered sort body) {y : ℕ} (hy : y ∈ body) :
    sort (vectorGet body 0) y = false := by
  obtain ⟨j, hj, rfl⟩ := List.getElem_of_mem hy
  have := ((ordered_iff sort body).mp h).root_not_rel (j + 1) (by omega) (by omega)
  simpa [node, Before, vectorGet_eq body hj] using this

/-! ## Whole runs -/

/-- Every body that a run of allowed calls reaches from an ordered one is ordered, and
    `pqueue_peek` of it, which is what `pqueue_pop` returns, gives a pointer that no pointer of
    the queue sorts after. -/
theorem pqueue_reachable_heap {body₀ body : List ℕ} (h₀ : Ordered sort body₀)
    (h : Transition.Reachable (fun b op => some (step sort b op)) Allowed body₀ body) :
    Ordered sort body ∧ ∀ x, pqueuePeek body = some x → ∀ y ∈ body, sort x y = false := by
  have hb : Ordered sort body := h.invariant _ h₀ fun b op b' hb hop hs => by
    cases hs
    exact step_ordered sort hb hop
  refine ⟨hb, fun x hx y hy => ?_⟩
  have hpos : body.length > 0 := List.length_pos_of_mem hy
  simp only [pqueuePeek, if_pos hpos, Option.some.injEq] at hx
  rw [← hx]
  exact ordered_root sort hb hy

/-- A timer queue, whose comparator is `>` on the expiry: four timers inserted, the one at
    offset 2 removed, and the earliest popped; the earliest left is at the root. -/
theorem pqueue_reachable_heap_timers :
    Ordered (fun a b => decide (b < a)) [3, 5] ∧
      ∀ x, pqueuePeek [3, 5] = some x → ∀ y ∈ [3, 5], decide (y < x) = false :=
  @pqueue_reachable_heap (fun a b => decide (b < a)) (isStrictWeakOrder_key id) [] [3, 5]
    (by decide)
    (.step .pop (.step (.removeAt 2) (.step (.insert 1) (.step (.insert 7) (.step (.insert 3)
      (.step (.insert 5) .init trivial rfl) trivial rfl) trivial rfl) trivial rfl) (by decide) rfl)
      trivial (by decide))

theorem foldl_insert (ptrs : List ℕ) {body : List ℕ} (h : Ordered sort body) :
    Ordered sort (ptrs.foldl (pqueueInsert sort) body) ∧
      (ptrs.foldl (pqueueInsert sort) body).Perm (ptrs ++ body) := by
  induction ptrs generalizing body with
  | nil => exact ⟨h, List.Perm.refl body⟩
  | cons p ptrs ih =>
    obtain ⟨ho, hp⟩ := ih (pqueueInsert_ordered sort h p)
    refine ⟨ho, hp.trans ?_⟩
    exact ((pqueueInsert_perm sort body p).append_left ptrs).trans List.perm_middle

/-- Popping an ordered body of non-null pointers until it is empty gives its pointers, none of
    them sorting before one popped after it. The induction is on the fuel, one pop a round: each
    pop returns the root and leaves an ordered body of the others. -/
theorem popLoop_sorted (fuel : ℕ) {body : List ℕ} (h : Ordered sort body)
    (hnz : ∀ p ∈ body, p ≠ 0) (hf : body.length ≤ fuel) :
    (popLoop sort fuel body).Perm body ∧
      (popLoop sort fuel body).Pairwise (fun a b => sort a b = false) := by
  induction fuel generalizing body with
  | zero =>
    rw [List.eq_nil_of_length_eq_zero (by omega : body.length = 0)]
    exact ⟨List.Perm.refl _, List.Pairwise.nil⟩
  | succ fuel ih =>
    rcases body with _ | ⟨x, rest⟩
    · exact ⟨List.Perm.refl _, List.Pairwise.nil⟩
    -- with no null pointer, the pop takes exactly the root out
    have hnull : (x :: rest).length = 1 ∨ vectorGet (x :: rest) ((x :: rest).length - 2) ≠ 0 := by
      rcases Nat.lt_or_ge rest.length 1 with h1 | h1
      · exact Or.inl (by simp only [List.length_cons]; omega)
      · refine Or.inr (hnz _ ?_)
        rw [vectorGet_eq _ (by simp only [List.length_cons]; omega)]
        exact List.getElem_mem _
    obtain ⟨hfst, hsnd⟩ := pqueuePop_perm sort (x :: rest) (List.cons_ne_nil x rest) hnull
    have hord := pqueuePop_ordered sort h
    generalize hq : pqueuePop sort (x :: rest) = q at hfst hsnd hord
    obtain ⟨o, r⟩ := q
    simp only [List.tail_cons] at hfst hsnd hord
    subst hfst
    have hmem : ∀ y ∈ r, y ∈ x :: rest := fun y hy => List.mem_cons_of_mem x (hsnd.subset hy)
    have hlen : r.length ≤ fuel := by
      rw [hsnd.length_eq]
      simp only [List.length_cons] at hf
      omega
    obtain ⟨hperm, hsorted⟩ := ih hord (fun p hp => hnz p (hmem p hp)) hlen
    simp only [popLoop, hq]
    refine ⟨(hperm.trans hsnd).cons x, List.Pairwise.cons (fun y hy => ?_) hsorted⟩
    exact ordered_root sort h (hmem y (hperm.subset hy))

/-- `print_tuple_internal` prints the entries it is given, each once, in the order of its
    comparator: none sorts before one printed after it. The entry pointers point into a buffer,
    so none is null. -/
theorem print_tuple_order {ptrs : List ℕ} (hnz : ∀ p ∈ ptrs, p ≠ 0) :
    (printTupleOrder sort ptrs).Perm ptrs ∧
      (printTupleOrder sort ptrs).Pairwise (fun a b => sort a b = false) := by
  have h0 : Ordered sort [] := by
    intro i hi h2
    simp only [List.length_nil] at hi
    omega
  obtain ⟨ho, hp⟩ := foldl_insert sort ptrs h0
  rw [List.append_nil] at hp
  obtain ⟨hperm, hsorted⟩ := popLoop_sorted sort _ ho (fun p h => hnz p (hp.subset h))
    (Nat.le_refl _)
  exact ⟨hperm.trans hp, hsorted⟩

/-- Three entries printed in the order of a comparator `>`: the least first. -/
theorem print_tuple_order_three :
    printTupleOrder (fun a b => decide (b < a)) [3, 1, 2] = [1, 2, 3] ∧
      (printTupleOrder (fun a b => decide (b < a)) [3, 1, 2]).Perm [3, 1, 2] ∧
      (printTupleOrder (fun a b => decide (b < a)) [3, 1, 2]).Pairwise
        (fun a b => decide (b < a) = false) :=
  ⟨by decide, @print_tuple_order (fun a b => decide (b < a)) (isStrictWeakOrder_key id) [3, 1, 2]
    (by decide)⟩

/-- `pqueue_reorder` turns any body into an ordered one of the same pointers. -/
theorem pqueue_reorder_heapifies (body : List ℕ) :
    (pqueueReorder sort body).Perm body ∧ Ordered sort (pqueueReorder sort body) :=
  ⟨pqueueReorder_perm sort body, pqueueReorder_ordered sort body⟩

/-- Floyd's construction on a body in the reverse of the order of `>`. -/
theorem pqueue_reorder_heapifies_reversed :
    pqueueReorder (fun a b => decide (b < a)) [9, 7, 5, 3, 1] = [1, 3, 5, 9, 7] ∧
      (pqueueReorder (fun a b => decide (b < a)) [9, 7, 5, 3, 1]).Perm [9, 7, 5, 3, 1] ∧
      Ordered (fun a b => decide (b < a)) (pqueueReorder (fun a b => decide (b < a)) [9, 7, 5, 3, 1]) :=
  ⟨by decide, @pqueue_reorder_heapifies (fun a b => decide (b < a)) (isStrictWeakOrder_key id)
    [9, 7, 5, 3, 1]⟩

end Weak

end Order

end Nanos.Pqueue
