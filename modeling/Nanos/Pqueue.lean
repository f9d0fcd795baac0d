import Mathlib.Data.List.Perm.Basic
import Mathlib.Algebra.Group.Nat.Defs

set_option autoImplicit false

/-!
# `runtime/pqueue.c`: priority queues

A pqueue is a binary heap in the vector `q->body`, indexed from 1: node `i` is
`vector_get(body, i - 1)`. A pointer is a number, `0` the null pointer, and `INVALID_ADDRESS` is
`none`; the loops run on fuel, which the length of the body bounds (`PqueueHeap`).

Every operation only permutes the pointers (`pqueueInsert_perm`, `pqueueRemoveAt_perm`,
`pqueueReorder_perm`), except `pqueue_pop`: it tests the pointer `vector_peek` gives rather than
the length, so when the pointer left last is null it keeps the root it returns
(`pqueuePop_of_peek_null`).
-/

namespace Nanos.Pqueue

/-- `vector_get`: the pointer at `offset`, null past the end. -/
def vectorGet (v : List ℕ) (offset : ℕ) : ℕ := v.getD offset 0

/-- `vector_peek`: the last pointer, null when the vector is empty. -/
def vectorPeek (v : List ℕ) : ℕ := v.getLastD 0

/-- `vector_pop`: the last pointer (null when the vector is empty) and the vector without it. -/
def vectorPop (v : List ℕ) : ℕ × List ℕ := (v.getLastD 0, v.dropLast)

section Model
variable (sort : ℕ → ℕ → Bool)

def swap (body : List ℕ) (x y : ℕ) : List ℕ :=
  let temp := vectorGet body (x - 1)
  (body.set (x - 1) (vectorGet body (y - 1))).set (y - 1) temp

def qcompare (body : List ℕ) (x y : ℕ) : Bool :=
  sort (vectorGet body (x - 1)) (vectorGet body (y - 1))

/-- The loop of `heal_down` from node `where'`, with `last` the length of the body. -/
def healDownLoop (last : ℕ) : ℕ → List ℕ → ℕ → List ℕ
  | 0, body, _ => body
  | fuel + 1, body, where' =>
    if where' <<< 1 ≤ last then
      -- the larger child: the right one when the left one sorts before it
      let i := if where' <<< 1 < last ∧ qcompare sort body (where' <<< 1) ((where' <<< 1) + 1)
        then (where' <<< 1) + 1 else where' <<< 1
      if qcompare sort body where' i then healDownLoop last fuel (swap body where' i) i
      else body
    else body

def healDown (body : List ℕ) (where' : ℕ) : List ℕ :=
  healDownLoop sort body.length body.length body where'

def healUpLoop : ℕ → List ℕ → ℕ → List ℕ
  | 0, body, _ => body
  | fuel + 1, body, where' =>
    if where' > 1 ∧ qcompare sort body (where' >>> 1) where' then
      healUpLoop fuel (swap body (where' >>> 1) where') (where' >>> 1)
    else body

def healUp (body : List ℕ) (where' : ℕ) : List ℕ := healUpLoop sort where' body where'

/-- The loop of `add_pqueue`, which keeps the parent in a variable of its own. -/
def addPqueueLoop : ℕ → List ℕ → ℕ → ℕ → List ℕ
  | 0, body, _, _ => body
  | fuel + 1, body, i, parent =>
    if parent > 0 ∧ qcompare sort body parent i then
      addPqueueLoop fuel (swap body i parent) parent (parent >>> 1)
    else body

def addPqueue (body : List ℕ) (i : ℕ) : List ℕ := addPqueueLoop sort i body i (i >>> 1)

def pqueueInsert (body : List ℕ) (v : ℕ) : List ℕ :=
  let body := body ++ [v]
  addPqueue sort body body.length

/-- `pqueue_remove_at`, for a vector offset `i`. -/
def pqueueRemoveAt (body : List ℕ) (i : ℕ) : List ℕ :=
  let (n, body) := vectorPop body
  if i ≠ body.length then
    let idx := i + 1
    let body := body.set i n
    if idx > 1 ∧ qcompare sort body (idx >>> 1) idx then healUp sort body (i + 1)
    else healDown sort body (i + 1)
  else body

/-- `pqueue_remove`: the loop stops at the first offset holding `v`. -/
def pqueueRemove (body : List ℕ) (v : ℕ) : Bool × List ℕ :=
  match body.idxOf? v with
  | some i => (true, pqueueRemoveAt sort body i)
  | none => (false, body)

/-- `pqueue_pop`: the root, `none` for `INVALID_ADDRESS`, and the body left. -/
def pqueuePop (body : List ℕ) : Option ℕ × List ℕ :=
  if body.length > 0 then
    let result := vectorGet body 0
    let (n, body) := vectorPop body
    if vectorPeek body ≠ 0 then (some result, healDown sort (body.set 0 n) 1)
    else (some result, body)
  else (none, body)

def pqueuePeek (body : List ℕ) : Option ℕ :=
  if body.length > 0 then some (vectorGet body 0) else none

def reorderLoop : ℕ → List ℕ → List ℕ
  | 0, body => body
  | i + 1, body => reorderLoop i (healDown sort body (i + 1))

/-- `pqueue_reorder`: Floyd's construction, `heal_down` on every inner node, last first. -/
def pqueueReorder (body : List ℕ) : List ℕ := reorderLoop sort (body.length / 2) body

inductive Op where
  | insert (v : ℕ)
  | pop
  | remove (v : ℕ)
  | removeAt (i : ℕ)
  | reorder
  deriving DecidableEq, Repr

def step (body : List ℕ) : Op → List ℕ
  | .insert v => pqueueInsert sort body v
  | .pop => (pqueuePop sort body).2
  | .remove v => (pqueueRemove sort body v).2
  | .removeAt i => pqueueRemoveAt sort body i
  | .reorder => pqueueReorder sort body

def run (body : List ℕ) (ops : List Op) : List ℕ := ops.foldl (step sort) body

/-- The heap order: no node sorts before one of its children. -/
def Ordered (body : List ℕ) : Prop :=
  ∀ i < body.length + 1, 2 ≤ i → qcompare sort body (i >>> 1) i = false

instance (body : List ℕ) : Decidable (Ordered sort body) :=
  inferInstanceAs (Decidable (∀ i < body.length + 1, 2 ≤ i → _))

end Model

/-! ## Index arithmetic -/

@[simp] theorem shiftLeft_one (n : ℕ) : n <<< 1 = 2 * n := by
  rw [Nat.shiftLeft_eq]
  omega

@[simp] theorem shiftRight_one (n : ℕ) : n >>> 1 = n / 2 := by
  rw [Nat.shiftRight_eq_div_pow]

theorem vectorGet_eq (v : List ℕ) {i : ℕ} (h : i < v.length) : vectorGet v i = v[i] := by
  simp [vectorGet, h]

@[simp] theorem length_swap (body : List ℕ) (x y : ℕ) : (swap body x y).length = body.length := by
  simp [swap]

/-! ## The pointers kept -/

theorem swap_perm (body : List ℕ) {x y : ℕ} (hx : 1 ≤ x) (hx' : x ≤ body.length)
    (hy : 1 ≤ y) (hy' : y ≤ body.length) : (swap body x y).Perm body := by
  have hx0 : x - 1 < body.toArray.size := by simp; omega
  have hy0 : y - 1 < body.toArray.size := by simp; omega
  have h := (Array.swap_perm hx0 hy0).toList
  rw [Array.toList_swap] at h
  simpa [swap, vectorGet_eq body (show x - 1 < body.length by omega),
    vectorGet_eq body (show y - 1 < body.length by omega)] using h

/-- A swap does not depend on the order of its two nodes, also when one is past the end: both
    orders then set the other node to null. -/
theorem swap_comm (body : List ℕ) (x y : ℕ) : swap body x y = swap body y x := by
  apply List.ext_getElem (by simp)
  intro k h1 h2
  simp only [swap, List.getElem_set, vectorGet]
  grind

section Perm
variable (sort : ℕ → ℕ → Bool)

theorem healDownLoop_perm (fuel : ℕ) (body : List ℕ) (where' : ℕ) (hw : 1 ≤ where') :
    (healDownLoop sort body.length fuel body where').Perm body := by
  induction fuel generalizing body where' with
  | zero => exact List.Perm.refl body
  | succ fuel ih =>
    simp only [healDownLoop, shiftLeft_one]
    split
    · rename_i hi
      -- the child picked is node 2 where' or 2 where' + 1, both within the body
      generalize hc : (if 2 * where' < body.length ∧ qcompare sort body (2 * where') (2 * where' + 1) = true
        then 2 * where' + 1 else 2 * where') = c
      have hc1 : 2 * where' ≤ c ∧ c ≤ body.length := by
        subst hc
        split <;> omega
      split
      · have hs := swap_perm body hw (by omega) (by omega) hc1.2
        have := ih (swap body where' c) c (by omega)
        rw [length_swap] at this
        exact this.trans hs
      · exact List.Perm.refl body
    · exact List.Perm.refl body

theorem healDown_perm (body : List ℕ) {where' : ℕ} (hw : 1 ≤ where') :
    (healDown sort body where').Perm body :=
  healDownLoop_perm sort _ body where' hw

theorem healUpLoop_perm (fuel : ℕ) (body : List ℕ) (where' : ℕ) (hw : where' ≤ body.length) :
    (healUpLoop sort fuel body where').Perm body := by
  induction fuel generalizing body where' with
  | zero => exact List.Perm.refl body
  | succ fuel ih =>
    simp only [healUpLoop, shiftRight_one]
    split
    · rename_i h
      have hs := @swap_perm body (where' / 2) where' (by omega) (by omega) (by omega) hw
      have := ih (swap body (where' / 2) where') (where' / 2) (by rw [length_swap]; omega)
      exact this.trans hs
    · exact List.Perm.refl body

theorem healUp_perm (body : List ℕ) {where' : ℕ} (hw : where' ≤ body.length) :
    (healUp sort body where').Perm body :=
  healUpLoop_perm sort _ body where' hw

/-- `add_pqueue` is `heal_up` with the parent kept in a variable: the same swaps, each written
    with its two nodes the other way round, which does not change what a swap does. -/
theorem addPqueueLoop_eq (fuel : ℕ) (body : List ℕ) (i : ℕ) :
    addPqueueLoop sort fuel body i (i >>> 1) = healUpLoop sort fuel body i := by
  induction fuel generalizing body i with
  | zero => rfl
  | succ fuel ih =>
    have hp : i >>> 1 > 0 ↔ i > 1 := by simp only [shiftRight_one]; omega
    simp only [addPqueueLoop, healUpLoop, hp, swap_comm body i, ih]

theorem pqueueInsert_perm (body : List ℕ) (v : ℕ) : (pqueueInsert sort body v).Perm (v :: body) := by
  have h := healUp_perm sort (body ++ [v]) (Nat.le_refl _)
  simp only [pqueueInsert, addPqueue, addPqueueLoop_eq]
  exact h.trans (List.perm_append_singleton v body)

@[simp] theorem vectorPop_concat (b : List ℕ) (n : ℕ) : vectorPop (b ++ [n]) = (n, b) := by
  simp [vectorPop]

theorem exists_eq_concat (body : List ℕ) (h : 0 < body.length) : ∃ b n, body = b ++ [n] := by
  rcases List.eq_nil_or_concat body with hb | ⟨b, n, hb⟩
  · simp [hb] at h
  · exact ⟨b, n, by simpa using hb⟩

/-- `pqueue_remove_at` of an offset within the body takes exactly the pointer there out, by
    either heal. -/
theorem pqueueRemoveAt_perm (body : List ℕ) {i : ℕ} (hi : i < body.length) :
    (pqueueRemoveAt sort body i).Perm (body.eraseIdx i) := by
  obtain ⟨b, n, rfl⟩ := exists_eq_concat body (by omega)
  simp only [List.length_append, List.length_singleton] at hi
  simp only [pqueueRemoveAt, vectorPop_concat]
  split
  · -- an offset before the last: the last pointer fills it and is healed into place
    rename_i hne
    have hib : i < b.length := by omega
    have hset : (b.set i n).Perm ((b ++ [n]).eraseIdx i) := by
      rw [List.eraseIdx_append_of_lt_length hib]
      exact (List.set_perm_cons_eraseIdx hib n).trans (List.perm_append_singleton n _).symm
    have hlen : (b.set i n).length = b.length := List.length_set
    split
    · exact (healUp_perm sort _ (by omega)).trans hset
    · exact (healDown_perm sort _ (by omega)).trans hset
  · -- the last offset: the pop is the whole removal
    rename_i heq
    have : i = (b ++ [n]).length - 1 := by simp; omega
    rw [this, List.eraseIdx_length_sub_one, List.dropLast_concat]

/-- `pqueue_remove` reports whether the pointer is in the queue and takes its first occurrence
    out. -/
theorem pqueueRemove_perm (body : List ℕ) (v : ℕ) :
    (pqueueRemove sort body v).1 = decide (v ∈ body) ∧
      (pqueueRemove sort body v).2.Perm (body.erase v) := by
  rw [List.erase_eq_eraseIdx]
  cases h : body.idxOf? v with
  | none =>
    simp only [pqueueRemove, h]
    exact ⟨by simpa using List.idxOf?_eq_none_iff.mp h, List.Perm.refl body⟩
  | some i =>
    obtain ⟨hi, hv, -⟩ := List.idxOf?_eq_some_iff.mp h
    simp only [pqueueRemove, h]
    exact ⟨(decide_eq_true (List.mem_iff_getElem.mpr ⟨i, hi, hv⟩)).symm,
      pqueueRemoveAt_perm sort body hi⟩

/-- `pqueue_pop` on a body of one pointer, or one whose pointer before the last is not null,
    returns the root and takes exactly it out. -/
theorem pqueuePop_perm (body : List ℕ) (hne : body ≠ [])
    (h : body.length = 1 ∨ vectorGet body (body.length - 2) ≠ 0) :
    (pqueuePop sort body).1 = some (vectorGet body 0) ∧ (pqueuePop sort body).2.Perm body.tail := by
  obtain ⟨b, n, rfl⟩ := exists_eq_concat body (List.length_pos_of_ne_nil hne)
  by_cases hb : b = []
  · -- one pointer: the pop empties the body
    subst hb
    simp [pqueuePop, vectorPeek, vectorPop, vectorGet]
  · -- the pointer before the last is not null: the last one moves to the root and heals down
    obtain ⟨c, m, rfl⟩ := exists_eq_concat b (List.length_pos_of_ne_nil hb)
    have hm : m ≠ 0 := by simpa [vectorGet] using h
    have hpeek : vectorPeek (c ++ [m]) ≠ 0 := by simpa [vectorPeek] using hm
    have hpos : (c ++ [m] ++ [n]).length > 0 := by simp
    rw [pqueuePop, if_pos hpos]
    simp only [vectorPop_concat]
    rw [if_pos hpeek]
    refine ⟨rfl, ?_⟩
    have hset := List.set_perm_cons_eraseIdx (show 0 < (c ++ [m]).length by simp) n
    rw [List.eraseIdx_zero] at hset
    rw [List.tail_append_of_ne_nil (by simp)]
    exact ((healDown_perm sort _ (Nat.le_refl 1)).trans hset).trans
      (List.perm_append_singleton n _).symm

/-- `pqueue_pop` on a body whose pointer before the last is null returns the root and keeps it,
    and drops the last pointer instead. -/
theorem pqueuePop_of_peek_null (body : List ℕ) (h2 : 2 ≤ body.length)
    (h : vectorGet body (body.length - 2) = 0) :
    pqueuePop sort body = (some (vectorGet body 0), body.dropLast) := by
  obtain ⟨b, n, rfl⟩ := exists_eq_concat body (by omega)
  obtain ⟨c, m, rfl⟩ := exists_eq_concat b (by simp at h2; omega)
  have hm : m = 0 := by simpa [vectorGet] using h
  have hpeek : vectorPeek (c ++ [m]) = 0 := by simpa [vectorPeek] using hm
  have hpos : (c ++ [m] ++ [n]).length > 0 := by simp
  rw [pqueuePop, if_pos hpos]
  simp only [vectorPop_concat]
  rw [if_neg (not_not.mpr hpeek), List.dropLast_concat]

theorem pqueueReorder_perm (body : List ℕ) : (pqueueReorder sort body).Perm body := by
  suffices ∀ i b, (reorderLoop sort i b).Perm b from this _ body
  intro i
  induction i with
  | zero => exact fun b => List.Perm.refl b
  | succ i ih => exact fun b => (ih _).trans (healDown_perm sort b (by omega))

end Perm

/-- With pointers compared as numbers, inserting `5`, null and `3` into an empty queue gives an
    ordered heap whose pointer before the last is null; the pop then returns `5` and leaves `5`
    and null, where taking the root out leaves null and `3`. -/
theorem pop_drops_after_null :
    run (fun a b => decide (a < b)) [] [.insert 5, .insert 0, .insert 3] = [5, 0, 3] ∧
      Ordered (fun a b => decide (a < b)) [5, 0, 3] ∧
      pqueuePop (fun a b => decide (a < b)) [5, 0, 3] = (some 5, [5, 0]) ∧
      ¬ [5, 0].Perm ([5, 0, 3].erase 5) := by
  decide

end Nanos.Pqueue
