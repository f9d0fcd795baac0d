import Mathlib.Data.List.Forall2
import Mathlib.Data.List.Nodup

set_option autoImplicit false

/-!
# Dictionaries that number what they record

A writer and a reader that share no memory can still share references: each keeps a dictionary
that records keys by appending them, so the `n`-th key recorded has index `n`, counted from 1.
The writer looks a key up by value (`indexOf`, 0 when absent), the reader by index (`keyAt`).
As long as both record at the same points of the stream, the two dictionaries stay index by
index related (`List.Forall₂`), and a key the writer names by its index is, on the reader's side,
the key recorded at that index (`keyAt_indexOf`). Keys at one index of the two lists are
`Aligned`; alignment survives any later appending, and is one to one on lists without repeats.
-/

namespace Nanos.IndexDict

variable {α β : Type*}

section Index
variable [DecidableEq α]

/-- The index `k` was recorded at, counted from 1; 0 for a key never recorded. -/
def indexOf (l : List α) (k : α) : ℕ :=
  match l.idxOf? k with
  | some i => i + 1
  | none => 0

theorem indexOf_eq_zero_iff {l : List α} {k : α} : indexOf l k = 0 ↔ k ∉ l := by
  unfold indexOf
  split
  · rename_i i h
    simp only [Nat.add_one_ne_zero, false_iff, not_not]
    obtain ⟨hi, hk, -⟩ := List.idxOf?_eq_some_iff.1 h
    exact hk ▸ List.getElem_mem hi
  · rename_i h
    exact iff_of_true rfl (List.idxOf?_eq_none_iff.1 h)

theorem getElem?_indexOf {l : List α} {k : α} (h : indexOf l k ≠ 0) :
    l[indexOf l k - 1]? = some k := by
  unfold indexOf at h ⊢
  split
  · rename_i i hi
    obtain ⟨hlt, hk, -⟩ := List.idxOf?_eq_some_iff.1 hi
    simp [hlt, hk]
  · rename_i hn
    rw [hn] at h
    exact absurd rfl h

/-- In a dictionary that records each key once, a key's index is the position it sits at. -/
theorem indexOf_of_getElem? {l : List α} (hnd : l.Nodup) {i : ℕ} {k : α} (h : l[i]? = some k) :
    indexOf l k = i + 1 := by
  obtain ⟨hi, hk⟩ := List.getElem?_eq_some_iff.1 h
  have hidx : l.idxOf? k = some i := by
    refine List.idxOf?_eq_some_iff.2 ⟨hi, hk, fun j hj hjk => ?_⟩
    have := (List.Nodup.getElem_inj_iff hnd).1 (hjk.trans hk.symm)
    omega
  rw [indexOf, hidx]

theorem indexOf_le_length (l : List α) (k : α) : indexOf l k ≤ l.length := by
  unfold indexOf
  split
  · rename_i i hi
    exact (List.idxOf?_eq_some_iff.1 hi).1
  · exact Nat.zero_le _

end Index

def keyAt (l : List β) (i : ℕ) : Option β := if i = 0 then none else l[i - 1]?

/-- Keys recorded at one index of two dictionaries. -/
def Aligned (l : List α) (l' : List β) (a : α) (b : β) : Prop :=
  ∃ i : ℕ, l[i]? = some a ∧ l'[i]? = some b

theorem Forall₂.getElem? {r : α → β → Prop} {l : List α} {l' : List β} (h : List.Forall₂ r l l')
    {i : ℕ} {a : α} (ha : l[i]? = some a) : ∃ b, l'[i]? = some b ∧ r a b := by
  induction h generalizing i with
  | nil => simp at ha
  | cons hab _ ih =>
    cases i with
    | zero =>
      rw [List.getElem?_cons_zero, Option.some_inj] at ha
      exact ⟨_, rfl, ha ▸ hab⟩
    | succ i => exact ih ha

theorem keyAt_indexOf [DecidableEq α] {r : α → β → Prop} {l : List α} {l' : List β}
    (h : List.Forall₂ r l l') {k : α} (hk : indexOf l k ≠ 0) :
    ∃ b, keyAt l' (indexOf l k) = some b ∧ r k b ∧ Aligned l l' k b := by
  obtain ⟨b, hb, hr⟩ := Forall₂.getElem? h (getElem?_indexOf hk)
  exact ⟨b, by rw [keyAt, if_neg hk, hb], hr, _, getElem?_indexOf hk, hb⟩

theorem getElem?_of_prefix_of_lt {l m : List α} (h : l <+: m) {i : ℕ} (hi : i < l.length) :
    m[i]? = l[i]? := by
  obtain ⟨t, rfl⟩ := h
  exact List.getElem?_append_left hi

theorem Aligned.mono {l m : List α} {l' m' : List β} {a : α} {b : β} (hl : l <+: m)
    (hl' : l' <+: m') (h : Aligned l l' a b) : Aligned m m' a b := by
  obtain ⟨i, ha, hb⟩ := h
  obtain ⟨t, rfl⟩ := hl
  obtain ⟨t', rfl⟩ := hl'
  have hi : i < l.length := (List.getElem?_eq_some_iff.1 ha).1
  have hi' : i < l'.length := (List.getElem?_eq_some_iff.1 hb).1
  exact ⟨i, by rw [List.getElem?_append_left hi, ha], by rw [List.getElem?_append_left hi', hb]⟩

theorem aligned_concat {l : List α} {l' : List β} (hlen : l.length = l'.length) (a : α) (b : β) :
    Aligned (l ++ [a]) (l' ++ [b]) a b :=
  ⟨l.length, by simp, by simp [hlen]⟩

/-- Alignment is one to one on the writer's side where the reader's list has no repeats. -/
theorem Aligned.left_unique {l : List α} {l' : List β} (hnd : l'.Nodup) {a a' : α} {b : β}
    (h : Aligned l l' a b) (h' : Aligned l l' a' b) : a = a' := by
  obtain ⟨i, ha, hb⟩ := h
  obtain ⟨j, ha', hb'⟩ := h'
  have hi : i < l'.length := (List.getElem?_eq_some_iff.1 hb).1
  have hij : i = j := (List.getElem?_inj hi hnd).1 (hb.trans hb'.symm)
  subst hij
  exact Option.some_inj.1 (ha.symm.trans ha')

/-- Alignment is one to one on the reader's side where the writer's list has no repeats. -/
theorem Aligned.right_unique {l : List α} {l' : List β} (hnd : l.Nodup) {a : α} {b b' : β}
    (h : Aligned l l' a b) (h' : Aligned l l' a b') : b = b' := by
  obtain ⟨i, ha, hb⟩ := h
  obtain ⟨j, ha', hb'⟩ := h'
  have hi : i < l.length := (List.getElem?_eq_some_iff.1 ha).1
  have hij : i = j := (List.getElem?_inj hi hnd).1 (ha.trans ha'.symm)
  subst hij
  exact Option.some_inj.1 (hb.symm.trans hb')

end Nanos.IndexDict
