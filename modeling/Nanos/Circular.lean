import Mathlib.Data.List.Basic

set_option autoImplicit false

/-!
# Arcs of a circular array

A circular array is a list `c` read with positions taken modulo its length. The arc of `n`
cells from position `p` is `window c p n`. A copy into the array is `copyAt`, the `memcpy`
of a block to a position; a copy that crosses the end of the array is done as two copies,
one up to the end and one from the start, and `copyAt_wrap` says what the pair does: the arc
written holds the block, and the arc of the other `c.length - n` cells is untouched. Reading
the same two pieces gives the arc (`take_drop_wrap`).
-/

namespace Nanos.Circular

variable {α : Type} [Inhabited α]

/-- The `n` cells of `c` from position `p`, going round. -/
def window (c : List α) (p n : ℕ) : List α :=
  (List.range n).map fun k => c.getD ((p + k) % c.length) default

def copyAt (dst : List α) (pos : ℕ) (src : List α) : List α :=
  dst.take pos ++ src ++ dst.drop (pos + src.length)

def fillAt (dst : List α) (pos : ℕ) (x : α) (n : ℕ) : List α :=
  dst.take pos ++ List.replicate n x ++ dst.drop (pos + n)

omit [Inhabited α] in
theorem fillAt_eq_copyAt (dst : List α) (pos : ℕ) (x : α) (n : ℕ) :
    fillAt dst pos x n = copyAt dst pos (List.replicate n x) := by
  simp [fillAt, copyAt]

@[simp] theorem length_window (c : List α) (p n : ℕ) : (window c p n).length = n := by
  simp [window]

@[simp] theorem getElem_window (c : List α) (p n k : ℕ) (h : k < (window c p n).length) :
    (window c p n)[k] = c.getD ((p + k) % c.length) default := by
  simp [window]

@[simp] theorem window_zero (c : List α) (p : ℕ) : window c p 0 = [] := rfl

/-- An arc is the arc of its first `a` cells followed by the arc of the next `b`. -/
theorem window_add (c : List α) (p a b : ℕ) :
    window c p (a + b) = window c p a ++ window c (p + a) b := by
  simp only [window, List.range_add, List.map_append, List.map_map]
  congr 1
  apply List.map_congr_left
  intro k _
  simp [Function.comp, Nat.add_assoc]

theorem window_add_length (c : List α) (p n : ℕ) :
    window c (p + c.length) n = window c p n := by
  apply List.map_congr_left
  intro k _
  rw [Nat.add_right_comm, Nat.add_mod_right]

theorem window_mod_add (c : List α) (p a n : ℕ) :
    window c (p % c.length + a) n = window c (p + a) n := by
  apply List.map_congr_left
  intro k _
  rw [Nat.add_assoc, Nat.mod_add_mod, Nat.add_assoc]

theorem window_mod (c : List α) (p n : ℕ) : window c (p % c.length) n = window c p n :=
  window_mod_add c p 0 n

theorem window_eq_iff (c : List α) (p : ℕ) (l : List α) :
    window c p l.length = l ↔ ∀ k < l.length, c.getD ((p + k) % c.length) default = l.getD k default := by
  constructor
  · intro h k hk
    rw [← h]
    simp [hk]
  · intro h
    apply List.ext_getElem (by simp)
    intro k h1 h2
    simpa [h2] using h k h2

theorem window_sub {c l : List α} {s m : ℕ} (h : window c s m = l) {i j : ℕ} (hij : i + j ≤ m) :
    window c (s + i) j = (l.drop i).take j := by
  have hm : m = i + j + (m - i - j) := by omega
  rw [← h, hm, window_add, window_add, ← Nat.add_assoc, List.append_assoc,
    List.drop_left' (length_window _ _ _), List.take_left' (length_window _ _ _)]

theorem window_inner {r c : List α} {s m : ℕ} (h : window r s m = window c s m) {i j : ℕ}
    (hij : i + j ≤ m) : window r (s + i) j = window c (s + i) j := by
  rw [window_sub h hij, window_sub rfl hij]

theorem window_inner_round {r c : List α} (hl : r.length = c.length) {s m : ℕ}
    (h : window r s m = window c s m) {x i j : ℕ} (hx : x + c.length = s + i) (hij : i + j ≤ m) :
    window r x j = window c x j := by
  rw [← window_add_length r, ← window_add_length c, hl, hx]
  exact window_inner h hij

omit [Inhabited α] in
theorem length_copyAt (dst : List α) {pos : ℕ} (src : List α) (h : pos + src.length ≤ dst.length) :
    (copyAt dst pos src).length = dst.length := by
  simp [copyAt]
  omega

theorem getD_copyAt (dst : List α) {pos : ℕ} (src : List α) (h : pos + src.length ≤ dst.length)
    (i : ℕ) : (copyAt dst pos src).getD i default =
      if pos ≤ i ∧ i < pos + src.length then src.getD (i - pos) default else dst.getD i default := by
  simp only [copyAt, List.getD_eq_getElem?_getD, List.append_assoc]
  by_cases h1 : i < pos
  · rw [List.getElem?_append_left (by simp; omega), List.getElem?_take_of_lt h1, if_neg (by omega)]
  · rw [List.getElem?_append_right (by simp; omega)]
    by_cases h2 : i < pos + src.length
    · rw [List.getElem?_append_left (by simp; omega), if_pos (by omega)]
      simp only [List.length_take]
      congr 2
      omega
    · rw [List.getElem?_append_right (by simp; omega), if_neg (by omega), List.getElem?_drop]
      simp only [List.length_take]
      congr 2
      omega

omit [Inhabited α] in
theorem mod_of_lt_add {x L : ℕ} (h : x < L + L) : x % L = if x < L then x else x - L := by
  split
  · exact Nat.mod_eq_of_lt ‹_›
  · rw [Nat.mod_eq_sub_mod (by omega), Nat.mod_eq_of_lt (by omega)]

theorem window_copyAt_zero (dst src : List α) (h : src.length ≤ dst.length) :
    window (copyAt dst 0 src) 0 src.length = src := by
  rw [window_eq_iff]
  intro k hk
  rw [length_copyAt _ _ (by omega), Nat.zero_add, Nat.mod_eq_of_lt (by omega),
    getD_copyAt _ _ (by omega), if_pos (by omega), Nat.sub_zero]

/-- A block of at most the array's length copied from position `p` as the two copies of a ring:
    the part that fits before the end, then the rest from the start. The arc from `p` holds the
    block, and the arc after it, the rest of the ring, is untouched. -/
theorem copyAt_wrap (c : List α) {p a : ℕ} (src : List α) (hp : p < c.length)
    (hn : src.length ≤ c.length) (ha : a = min src.length (c.length - p)) :
    let r := if a < src.length then copyAt (copyAt c p (src.take a)) 0 (src.drop a)
      else copyAt c p (src.take a)
    r.length = c.length ∧ window r p src.length = src ∧
      window r (p + src.length) (c.length - src.length) =
        window c (p + src.length) (c.length - src.length) := by
  intro r
  have h1 : p + (src.take a).length ≤ c.length := by simp; omega
  have hc1 := length_copyAt c (src.take a) h1
  have h2 : 0 + (src.drop a).length ≤ (copyAt c p (src.take a)).length := by simp [hc1]; omega
  -- every cell of the result: the block where it was copied, the old cell elsewhere
  have hr : ∀ i, r.getD i default =
      if a < src.length ∧ i < src.length - a then src.getD (i + a) default
      else if p ≤ i ∧ i < p + a then src.getD (i - p) default else c.getD i default := by
    intro i
    simp only [r]
    split
    · rw [getD_copyAt _ _ h2, getD_copyAt _ _ h1]
      simp only [List.length_drop, List.length_take, List.getD_eq_getElem?_getD, List.getElem?_drop,
        List.getElem?_take]
      grind
    · rw [getD_copyAt _ _ h1]
      simp only [List.length_take, List.getD_eq_getElem?_getD, List.getElem?_take]
      grind
  have hlen : r.length = c.length := by
    simp only [r]
    split
    · rw [length_copyAt _ _ h2, hc1]
    · exact hc1
  refine ⟨hlen, ?_, ?_⟩
  · rw [window_eq_iff]
    intro k hk
    rw [hr, hlen, mod_of_lt_add (by omega)]
    grind
  · apply List.ext_getElem (by simp)
    intro j _ hj
    simp only [length_window] at hj
    simp only [getElem_window, hr, hlen]
    rw [mod_of_lt_add (by omega)]
    grind

theorem take_drop_wrap (c : List α) {p a n : ℕ} (hp : p < c.length) (hn : n ≤ c.length)
    (ha : a = min n (c.length - p)) :
    (if a < n then (c.drop p).take a ++ c.take (n - a) else (c.drop p).take a) = window c p n := by
  apply List.ext_getElem
  · split <;> simp <;> omega
  · intro k h1 h2
    simp only [length_window] at h2
    rw [getElem_window, List.getElem_eq_getD default, List.getD_eq_getElem?_getD,
      List.getD_eq_getElem?_getD, mod_of_lt_add (by omega)]
    split
    · rw [List.getElem?_append]
      simp only [List.length_take, List.length_drop, List.getElem?_take, List.getElem?_drop]
      grind
    · simp only [List.getElem?_take, List.getElem?_drop]
      grind

end Nanos.Circular
