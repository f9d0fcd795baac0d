import Mathlib.Logic.Basic

set_option autoImplicit false

/-!
# Chains threaded through a successor function

A singly linked list kept inside the memory it links: following `next` from a start visits the
list's elements and ends at a sentinel `stop`. A chain depends on `next` only at the elements it
visits (`Chain.congr`), so a store anywhere else keeps it; pushing a new head stores the old start
in it (`Chain.push`), and popping the head follows its link (`Chain.cons_inv`). A chain is
determined by its start, so it visits no element twice (`Chain.nodup`).

A doubly linked list (`DChain`) also links each element back to the one before it. Besides the
push of a new head (`DChain.push`), an element anywhere in it is unlinked by the two stores of
its neighbours (`DChain.unlink`), and the list is then the old one without it.
-/

namespace Nanos.Linked

variable {α : Type*} {prev prev' next next' : α → α} {stop : α}

/-- Following `next` from `a` visits the elements of `l` in order, then reaches `stop`. -/
inductive Chain (next : α → α) (stop : α) : α → List α → Prop
  | nil : Chain next stop stop []
  | cons {a : α} {l : List α} : a ≠ stop → Chain next stop (next a) l → Chain next stop a (a :: l)

namespace Chain

theorem nil_inv {a : α} (h : Chain next stop a []) : a = stop := by
  cases h
  rfl

theorem cons_inv {a x : α} {l : List α} (h : Chain next stop a (x :: l)) :
    a = x ∧ x ≠ stop ∧ Chain next stop (next x) l := by
  cases h with
  | cons hx h => exact ⟨rfl, hx, h⟩

theorem eq_nil_of_stop {l : List α} (h : Chain next stop stop l) : l = [] := by
  cases h with
  | nil => rfl
  | cons hx _ => exact absurd rfl hx

theorem eq_cons_of_ne {a : α} {l : List α} (h : Chain next stop a l) (ha : a ≠ stop) :
    ∃ l', l = a :: l' ∧ Chain next stop (next a) l' := by
  cases h with
  | nil => exact absurd rfl ha
  | cons _ h => exact ⟨_, rfl, h⟩

theorem ne_stop_of_mem {a x : α} {l : List α} (h : Chain next stop a l) (hx : x ∈ l) :
    x ≠ stop := by
  induction h with
  | nil => simp at hx
  | cons ha _ ih =>
    rcases List.mem_cons.1 hx with rfl | hx
    · exact ha
    · exact ih hx

theorem congr {a : α} {l : List α} (h : Chain next stop a l) (hc : ∀ x ∈ l, next' x = next x) :
    Chain next' stop a l := by
  induction h with
  | nil => exact .nil
  | cons ha _ ih =>
    refine .cons ha ?_
    rw [hc _ List.mem_cons_self]
    exact ih fun x hx => hc x (List.mem_cons_of_mem _ hx)

/-- Storing the start `a` in an element `x`, where the chain does not read, makes `x` its new
    start. -/
theorem push {a x : α} {l : List α} (h : Chain next stop a l) (hx : x ≠ stop)
    (hnext : next' x = a) (hc : ∀ y ∈ l, next' y = next y) : Chain next' stop x (x :: l) := by
  refine .cons hx ?_
  rw [hnext]
  exact h.congr hc

theorem suffix {a b : α} {l₁ l₂ : List α} (h : Chain next stop a (l₁ ++ b :: l₂)) :
    Chain next stop b (b :: l₂) := by
  induction l₁ generalizing a with
  | nil => obtain ⟨rfl, -⟩ := h.cons_inv; exact h
  | cons x l₁ ih => exact ih h.cons_inv.2.2

theorem unique {a : α} {l l' : List α} (h : Chain next stop a l) (h' : Chain next stop a l') :
    l = l' := by
  induction h generalizing l' with
  | nil => exact (h'.eq_nil_of_stop).symm
  | cons ha _ ih =>
    obtain ⟨l'', rfl, h''⟩ := h'.eq_cons_of_ne ha
    rw [ih h'']

/-- A chain visits no element twice: from a repeated element it would go on as two chains of
    different lengths. -/
theorem nodup {a : α} {l : List α} (h : Chain next stop a l) : l.Nodup := by
  induction h with
  | nil => exact List.nodup_nil
  | @cons a l ha hl ih =>
    refine List.nodup_cons.2 ⟨fun hmem => ?_, ih⟩
    obtain ⟨l₁, l₂, rfl⟩ := List.append_of_mem hmem
    have hsame := unique (Chain.cons ha hl) hl.suffix
    have hlen := congrArg List.length hsame
    simp at hlen
    omega

end Chain

/-- A doubly linked list kept inside memory: from `a`, following `next` visits the elements of
    `l` in order and reaches `stop`, and `prev` of each element is the one before it, `p` for
    the first. -/
inductive DChain (prev next : α → α) (stop : α) : α → α → List α → Prop
  | nil {p : α} : DChain prev next stop p stop []
  | cons {p x : α} {l : List α} : x ≠ stop → prev x = p → DChain prev next stop x (next x) l →
      DChain prev next stop p x (x :: l)

namespace DChain

variable {p a : α} {l : List α}

theorem chain (h : DChain prev next stop p a l) : Chain next stop a l := by
  induction h with
  | nil => exact .nil
  | cons hx _ _ ih => exact .cons hx ih

theorem nodup (h : DChain prev next stop p a l) : l.Nodup := h.chain.nodup

theorem eq_stop_iff (h : DChain prev next stop p a l) : a = stop ↔ l = [] := by
  cases h with
  | nil => simp
  | cons hx _ _ => simp [hx]

theorem head_prev (h : DChain prev next stop p a l) (ha : a ≠ stop) : prev a = p := by
  cases h with
  | nil => exact absurd rfl ha
  | cons _ hpx _ => exact hpx

theorem ne_stop_of_mem {x : α} (h : DChain prev next stop p a l) (hx : x ∈ l) : x ≠ stop :=
  h.chain.ne_stop_of_mem hx

theorem eq_cons (h : DChain prev next stop p a l) (ha : a ≠ stop) :
    ∃ l', l = a :: l' ∧ DChain prev next stop a (next a) l' := by
  cases h with
  | nil => exact absurd rfl ha
  | cons _ _ ht => exact ⟨_, rfl, ht⟩

theorem next_mem {x : α} (h : DChain prev next stop p a l) (hx : x ∈ l) (hn : next x ≠ stop) :
    next x ∈ l := by
  induction h with
  | nil => simp at hx
  | @cons p y l _ _ ht ih =>
    rcases List.mem_cons.1 hx with rfl | hx
    · exact List.mem_cons_of_mem _ (by
        obtain ⟨l', rfl, -⟩ := ht.chain.eq_cons_of_ne hn
        exact List.mem_cons_self)
    · exact List.mem_cons_of_mem _ (ih hx)

theorem prev_mem {x : α} (h : DChain prev next stop p a l) (hx : x ∈ l) (hxa : x ≠ a) :
    prev x ∈ l := by
  induction h with
  | nil => simp at hx
  | @cons p y l _ _ ht ih =>
    have hxl : x ∈ l := (List.mem_cons.1 hx).resolve_left hxa
    by_cases hxn : x = next y
    · subst hxn
      rw [ht.head_prev (ht.ne_stop_of_mem hxl)]
      exact List.mem_cons_self
    · exact List.mem_cons_of_mem _ (ih hxl hxn)

theorem next_prev {x : α} (h : DChain prev next stop p a l) (hx : x ∈ l) (hxa : x ≠ a) :
    next (prev x) = x := by
  induction h with
  | nil => simp at hx
  | @cons p y l _ _ ht ih =>
    have hxl : x ∈ l := (List.mem_cons.1 hx).resolve_left hxa
    by_cases hxn : x = next y
    · subst hxn
      rw [ht.head_prev (ht.ne_stop_of_mem hxl)]
    · exact ih hxl hxn

/-- The neighbours of an element other than the first differ: the list has no cycle of two. -/
theorem prev_ne_next {x : α} (h : DChain prev next stop p a l) (hx : x ∈ l) (hxa : x ≠ a) :
    prev x ≠ next x := by
  intro hpn
  have hw : next x ≠ stop := hpn ▸ h.ne_stop_of_mem (h.prev_mem hx hxa)
  have hback : next (next x) = x := hpn ▸ h.next_prev hx hxa
  obtain ⟨l₁, l₂, rfl⟩ := List.append_of_mem hx
  -- from `x` the chain goes to `next x` and back to `x`
  have hc : Chain next stop x (x :: l₂) := h.chain.suffix
  obtain ⟨-, -, hc'⟩ := hc.cons_inv
  obtain ⟨l₃, rfl, hc''⟩ := hc'.eq_cons_of_ne hw
  rw [hback] at hc''
  have hlen := congrArg List.length (hc.unique hc'')
  simp at hlen
  omega

theorem prev_eq_stop_iff {x : α} (h : DChain prev next stop stop a l) (hx : x ∈ l) :
    prev x = stop ↔ x = a := by
  constructor
  · intro hpx
    by_cases hxa : x = a
    · exact hxa
    · exact absurd hpx (h.ne_stop_of_mem (h.prev_mem hx hxa))
  · rintro rfl
    exact h.head_prev (h.ne_stop_of_mem hx)

theorem congr (h : DChain prev next stop p a l)
    (hc : ∀ x ∈ l, prev' x = prev x ∧ next' x = next x) : DChain prev' next' stop p a l := by
  induction h with
  | nil => exact .nil
  | cons hx hpx _ ih =>
    obtain ⟨hp', hn'⟩ := hc _ List.mem_cons_self
    refine .cons hx (hp'.trans hpx) ?_
    rw [hn']
    exact ih fun y hy => hc y (List.mem_cons_of_mem _ hy)

theorem repoint {q : α} (h : DChain prev next stop p a l) (hq : a ≠ stop → prev' a = q)
    (hprev : ∀ y ∈ l, y ≠ a → prev' y = prev y) (hnext : ∀ y ∈ l, next' y = next y) :
    DChain prev' next' stop q a l := by
  cases h with
  | nil => exact .nil
  | @cons _ _ l hx _ ht =>
    have hxl : a ∉ l := (List.nodup_cons.1 (DChain.cons hx rfl ht).nodup).1
    refine .cons hx (hq hx) ?_
    rw [hnext a List.mem_cons_self]
    refine ht.congr fun y hy => ⟨?_, hnext y (List.mem_cons_of_mem _ hy)⟩
    exact hprev y (List.mem_cons_of_mem _ hy) (ne_of_mem_of_not_mem hy hxl)

/-- Pushing `x` in front: its links go to `p` and the old first element, whose `prev` goes to
    `x`. -/
theorem push {x : α} (h : DChain prev next stop p a l) (hx : x ≠ stop)
    (hpx : prev' x = p) (hnx : next' x = a) (ha : a ≠ stop → prev' a = x)
    (hprev : ∀ y ∈ l, y ≠ a → prev' y = prev y) (hnext : ∀ y ∈ l, next' y = next y) :
    DChain prev' next' stop p x (x :: l) := by
  refine .cons hx hpx ?_
  rw [hnx]
  exact h.repoint ha hprev hnext

variable [DecidableEq α]

/-- Unlinking `x`: the element after it gets `prev x` and the one before it gets `next x` (the
    start moves on when `x` is first); the list is then the old one without `x`. -/
theorem unlink {x : α} (h : DChain prev next stop p a l) (hx : x ∈ l) (hpl : p ∉ l)
    (hn : next x ≠ stop → prev' (next x) = prev x)
    (hp : prev x ∈ l → next' (prev x) = next x)
    (hprev : ∀ y ∈ l, y ≠ x → y ≠ next x → prev' y = prev y)
    (hnext : ∀ y ∈ l, y ≠ x → y ≠ prev x → next' y = next y) :
    DChain prev' next' stop p (if a = x then next x else a) (l.erase x) := by
  induction h with
  | nil => simp at hx
  | @cons p y l hy hpy ht ih =>
    have hyl : y ∉ l := (List.nodup_cons.1 (DChain.cons hy hpy ht).nodup).1
    by_cases hyx : y = x
    · -- the first element goes: the rest is linked back to `p`
      subst hyx
      rw [if_pos rfl, List.erase_cons_head]
      refine ht.repoint (fun hne => (hn hne).trans hpy) (fun z hz hzn => ?_) (fun z hz => ?_)
      · exact hprev z (List.mem_cons_of_mem _ hz) (ne_of_mem_of_not_mem hz hyl) hzn
      · refine hnext z (List.mem_cons_of_mem _ hz) (ne_of_mem_of_not_mem hz hyl) ?_
        rw [hpy]
        exact ne_of_mem_of_not_mem (List.mem_cons_of_mem _ hz) hpl
    · have hxl : x ∈ l := (List.mem_cons.1 hx).resolve_left (Ne.symm hyx)
      rw [if_neg hyx, List.erase_cons_tail (by simpa using hyx)]
      -- `next x` comes after `x`, so it is not `y`
      have hyn : y ≠ next x := fun hyn =>
        hyl (hyn ▸ ht.next_mem hxl (hyn ▸ hy))
      refine .cons hy ((hprev y List.mem_cons_self hyx hyn).trans hpy) ?_
      have htail := ih hxl hyl (fun h' => hp (List.mem_cons_of_mem _ h'))
        (fun z hz => hprev z (List.mem_cons_of_mem _ hz)) (fun z hz => hnext z (List.mem_cons_of_mem _ hz))
      by_cases hnx : next y = x
      · -- `y` is just before `x`: its `next` is the store of the unlink
        have hpx : prev x = y := hnx ▸ ht.head_prev (hnx ▸ ht.ne_stop_of_mem hxl)
        have hny : next' y = next x := by
          have hstore := hp (by rw [hpx]; exact List.mem_cons_self)
          rwa [hpx] at hstore
        rw [if_pos hnx] at htail
        rwa [hny]
      · have hpx : prev x ≠ y := fun hpx => hyl (hpx ▸ ht.prev_mem hxl (Ne.symm hnx))
        rw [if_neg hnx] at htail
        rwa [hnext y List.mem_cons_self hyx (Ne.symm hpx)]

end DChain

end Nanos.Linked
