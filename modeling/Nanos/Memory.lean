import Mathlib.Data.List.Nodup

set_option autoImplicit false

/-!
# A memory written cell by cell

A memory maps addresses to cells. `store` writes a list of values at a list of addresses, one
after another; a block copy, `memcpy`, is `store` at consecutive addresses (`write`), and `read`
gives back the cells of a block. Stores compose by appending (`store_append`, `write_append`); a
store leaves every address it does not name alone (`store_apply_of_not_mem`); and when the
addresses are distinct, reading them back gives the values stored (`map_store`).
-/

namespace Nanos.Memory

variable {α : Type}

/-- The values `vals` stored at the addresses `addrs`, one after another. -/
def store (mem : ℕ → α) (addrs : List ℕ) (vals : List α) : ℕ → α :=
  (addrs.zip vals).foldl (fun m p => Function.update m p.1 p.2) mem

def read (mem : ℕ → α) (a n : ℕ) : List α := (List.range' a n).map mem

/-- `memcpy` of the block `src` to address `a`. -/
def write (mem : ℕ → α) (a : ℕ) (src : List α) : ℕ → α := store mem (List.range' a src.length) src

@[simp] theorem store_nil (mem : ℕ → α) (vals : List α) : store mem [] vals = mem := rfl

@[simp] theorem write_nil (mem : ℕ → α) (a : ℕ) : write mem a [] = mem := rfl

theorem store_cons (mem : ℕ → α) (a : ℕ) (addrs : List ℕ) (v : α) (vals : List α) :
    store mem (a :: addrs) (v :: vals) = store (Function.update mem a v) addrs vals := rfl

@[simp] theorem length_read (mem : ℕ → α) (a n : ℕ) : (read mem a n).length = n := by
  simp [read]

theorem read_add (mem : ℕ → α) (a m n : ℕ) : read mem a (m + n) = read mem a m ++ read mem (a + m) n := by
  rw [read, read, read, ← List.range'_append_1, List.map_append]

theorem store_append (mem : ℕ → α) {A : List ℕ} {V : List α} (hl : A.length = V.length)
    (A' : List ℕ) (V' : List α) : store mem (A ++ A') (V ++ V') = store (store mem A V) A' V' := by
  simp [store, List.zip_append hl, List.foldl_append]

theorem store_apply_of_not_mem (mem : ℕ → α) {A : List ℕ} (V : List α) {x : ℕ} (hx : x ∉ A) :
    store mem A V x = mem x := by
  induction A generalizing mem V with
  | nil => rfl
  | cons a A ih =>
    cases V with
    | nil => rfl
    | cons v V =>
      rw [List.mem_cons, not_or] at hx
      rw [store_cons, ih _ _ hx.2, Function.update_of_ne hx.1]

/-- Reading back distinct addresses after a store to the first of them gives the values stored,
    then the cells of the others as they were. -/
theorem map_store (mem : ℕ → α) {A B : List ℕ} {V : List α} (hd : (A ++ B).Nodup)
    (hl : A.length = V.length) : (A ++ B).map (store mem A V) = V ++ B.map mem := by
  induction A generalizing mem V with
  | nil =>
    rw [List.length_nil, eq_comm, List.length_eq_zero_iff] at hl
    subst hl
    rfl
  | cons a A ih =>
    cases V with
    | nil => simp at hl
    | cons v V =>
      rw [List.cons_append, List.nodup_cons, List.mem_append, not_or] at hd
      rw [List.cons_append, List.map_cons, store_cons, ih _ hd.2 (by simpa using hl),
        store_apply_of_not_mem _ _ hd.1.1, Function.update_self, List.cons_append]
      congr 2
      apply List.map_congr_left
      intro x hx
      apply Function.update_of_ne
      rintro rfl
      exact hd.1.2 hx

theorem write_append (mem : ℕ → α) (a : ℕ) (u w : List α) :
    write (write mem a u) (a + u.length) w = write mem a (u ++ w) := by
  rw [write, write, write, ← store_append _ (by simp), List.length_append, List.range'_append_1]

theorem read_congr {mem mem' : ℕ → α} {a n : ℕ} (h : ∀ i, a ≤ i → i < a + n → mem i = mem' i) :
    read mem a n = read mem' a n := by
  apply List.map_congr_left
  intro i hi
  rw [List.mem_range'_1] at hi
  exact h i hi.1 hi.2

theorem write_apply_of_not_mem (mem : ℕ → α) (a : ℕ) (src : List α) {x : ℕ}
    (hx : x < a ∨ a + src.length ≤ x) : write mem a src x = mem x := by
  apply store_apply_of_not_mem
  rw [List.mem_range'_1]
  omega

theorem read_write_self (mem : ℕ → α) (a : ℕ) (src : List α) :
    read (write mem a src) a src.length = src := by
  have hd : (List.range' a src.length ++ []).Nodup := by
    rw [List.append_nil]
    exact List.nodup_range'
  have h := map_store mem hd List.length_range'
  rwa [List.append_nil, List.map_nil, List.append_nil] at h

theorem read_write_of_disjoint (mem : ℕ → α) {a b n : ℕ} (src : List α)
    (h : b + n ≤ a ∨ a + src.length ≤ b) : read (write mem a src) b n = read mem b n :=
  read_congr fun i hb hi => write_apply_of_not_mem mem a src (by omega)

end Nanos.Memory
