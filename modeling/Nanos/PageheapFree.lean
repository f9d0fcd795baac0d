import Nanos.Pageheap
import Nanos.Linked

set_option autoImplicit false

/-!
# The free lists of a page heap area

Each order's free list of an area is a doubly linked list threaded through `free_pages` by page
index, from `first[order]` to `PAGE_INDEX_INVALID`, which also stands before the first element:
a `Linked.DChain`. `FreeLists` asks this of every order, with no page on two lists.
`pageheap_add_free` pushes a page that is on no list (`FreeLists.addFree`) and
`pageheap_remove_free` unlinks a page from its list (`FreeLists.removeFree`); both keep every
list of the area linked and say truly whether the list was or became empty.
-/

namespace Nanos.Pageheap

open Linked PageheapArea

/-! ## Stores into an area -/

namespace PageheapArea

variable (a : PageheapArea)

@[simp] theorem setElem_freePages (i : ℕ) (e : PageListElem) :
    (a.setElem i e).freePages = Function.update a.freePages i e := rfl

@[simp] theorem setElem_first (i : ℕ) (e : PageListElem) : (a.setElem i e).first = a.first := rfl

@[simp] theorem setFirst_freePages (o v : ℕ) : (a.setFirst o v).freePages = a.freePages := rfl

@[simp] theorem setFirst_first (o v : ℕ) :
    (a.setFirst o v).first = Function.update a.first o v := rfl

@[simp] theorem setPrev_freePages (i v : ℕ) :
    (a.setPrev i v).freePages = Function.update a.freePages i { a.freePages i with prev := v } :=
  rfl

@[simp] theorem setPrev_first (i v : ℕ) : (a.setPrev i v).first = a.first := rfl

@[simp] theorem setNext_freePages (i v : ℕ) :
    (a.setNext i v).freePages = Function.update a.freePages i { a.freePages i with next := v } :=
  rfl

@[simp] theorem setNext_first (i v : ℕ) : (a.setNext i v).first = a.first := rfl

end PageheapArea

/-! ## `pageheap_add_free` and `pageheap_remove_free`, store by store -/

section
variable {a : PageheapArea} {i o : ℕ}

theorem addFree_first (a : PageheapArea) (i o : ℕ) :
    (pageheapAddFree a i o).1.first = Function.update a.first o i := by
  unfold pageheapAddFree
  dsimp only
  split <;> simp

theorem addFree_snd (a : PageheapArea) (i o : ℕ) :
    (pageheapAddFree a i o).2 = true ↔ a.first o = pageIndexInvalid := by
  unfold pageheapAddFree
  dsimp only
  split <;> simp_all

/-- The new element points back to the sentinel and on to the old first page, whose `prev` is
    now the new element; nothing else changes. -/
theorem addFree_freePages (hi : i ≠ a.first o) (y : ℕ) :
    (pageheapAddFree a i o).1.freePages y =
      if y = i then ⟨pageIndexInvalid, a.first o⟩
      else if y = a.first o ∧ a.first o ≠ pageIndexInvalid then
        { a.freePages y with prev := i }
      else a.freePages y := by
  unfold pageheapAddFree
  dsimp only
  by_cases hyi : y = i
  · subst hyi
    split <;> simp [Function.update_apply, hi]
  · by_cases hyf : y = a.first o
    · subst hyf
      split <;> simp_all [Function.update_apply]
    · split <;> simp [Function.update_apply, hyi, hyf]

/-- `pageheap_remove_free` stores `first[order]` only when the page has no element before it. -/
theorem removeFree_first (a : PageheapArea) (i o : ℕ) :
    (pageheapRemoveFree a i o).1.first =
      if (a.freePages i).prev ≠ pageIndexInvalid then a.first
      else Function.update a.first o (a.freePages i).next := by
  unfold pageheapRemoveFree
  dsimp only
  split <;> split <;> simp_all

theorem removeFree_snd (a : PageheapArea) (i o : ℕ) :
    (pageheapRemoveFree a i o).2 = true ↔
      (a.freePages i).prev = pageIndexInvalid ∧ (a.freePages i).next = pageIndexInvalid := by
  unfold pageheapRemoveFree
  dsimp only
  split <;> split <;> simp_all

/-- The element after the page gets its `prev`, the one before it gets its `next`; nothing else
    changes. -/
theorem removeFree_freePages
    (hpn : (a.freePages i).prev ≠ (a.freePages i).next ∨ (a.freePages i).prev = pageIndexInvalid)
    (y : ℕ) :
    (pageheapRemoveFree a i o).1.freePages y =
      if y = (a.freePages i).next ∧ (a.freePages i).next ≠ pageIndexInvalid then
        { a.freePages y with prev := (a.freePages i).prev }
      else if y = (a.freePages i).prev ∧ (a.freePages i).prev ≠ pageIndexInvalid then
        { a.freePages y with next := (a.freePages i).next }
      else a.freePages y := by
  have hnp : (a.freePages i).prev ≠ pageIndexInvalid → (a.freePages i).next ≠ (a.freePages i).prev :=
    fun hpi hnp => hpn.resolve_right hpi hnp.symm
  unfold pageheapRemoveFree
  dsimp only
  by_cases hyn : y = (a.freePages i).next
  · subst hyn
    split <;> split <;> simp_all [Function.update_apply]
  · by_cases hyp : y = (a.freePages i).prev
    · subst hyp
      split <;> split <;> simp_all [Function.update_apply]
    · split <;> split <;> simp [Function.update_apply, hyn, hyp]

end

/-! ## The lists -/

/-- The free list of order `o` of an area holds the pages of `l`, linked from `first[o]`. -/
def FreeList (a : PageheapArea) (o : ℕ) (l : List ℕ) : Prop :=
  DChain (fun i => (a.freePages i).prev) (fun i => (a.freePages i).next) pageIndexInvalid
    pageIndexInvalid (a.first o) l

/-- Every free list of an area is linked, and no page is on two of them. -/
structure FreeLists (a : PageheapArea) (L : ℕ → List ℕ) : Prop where
  linked : ∀ o, FreeList a o (L o)
  disjoint : ∀ o o', o ≠ o' → ∀ i ∈ L o, i ∉ L o'

namespace FreeLists

variable {a : PageheapArea} {L : ℕ → List ℕ} {i o : ℕ}

theorem first_mem (h : FreeLists a L) (o : ℕ) (hf : a.first o ≠ pageIndexInvalid) :
    a.first o ∈ L o := by
  obtain ⟨l, hl, -⟩ := (h.linked o).chain.eq_cons_of_ne hf
  rw [hl]
  exact List.mem_cons_self

theorem ne_invalid (h : FreeLists a L) {o j : ℕ} (hj : j ∈ L o) : j ≠ pageIndexInvalid :=
  (h.linked o).ne_stop_of_mem hj

/-- A list of another order is kept when the stores touch none of its pages nor its head. -/
theorem other {a' : PageheapArea} (h : FreeLists a L) {o' : ℕ}
    (hfirst : a'.first o' = a.first o') (hpages : ∀ j ∈ L o', a'.freePages j = a.freePages j) :
    FreeList a' o' (L o') := by
  unfold FreeList
  rw [hfirst]
  exact (h.linked o').congr fun j hj => by rw [hpages j hj]; exact ⟨rfl, rfl⟩

/-- `pageheap_add_free` of a page on no list makes it the first of its list, and says whether the
    list was empty. -/
theorem addFree (h : FreeLists a L) (hi : i ≠ pageIndexInvalid) (hfree : ∀ o', i ∉ L o') :
    FreeLists (pageheapAddFree a i o).1 (Function.update L o (i :: L o)) ∧
      ((pageheapAddFree a i o).2 = true ↔ L o = []) := by
  -- the old head is on the list or is the sentinel, so it is not `i`
  have hih : i ≠ a.first o := fun hif => by
    by_cases hf : a.first o = pageIndexInvalid
    · exact hi (hif.trans hf)
    · exact hfree o (hif ▸ h.first_mem o hf)
  have hpages := addFree_freePages (o := o) hih
  refine ⟨⟨fun o' => ?_, fun o₁ o₂ hne j hj₁ hj₂ => ?_⟩, ?_⟩
  · by_cases ho : o' = o
    · subst ho
      simp only [FreeList, Function.update_self, addFree_first]
      refine (h.linked o').push hi (by simp [hpages]) (by simp [hpages]) (fun hf => ?_)
        (fun y hy hyf => ?_) (fun y hy => ?_)
      · simp [hpages, hf, Ne.symm hih]
      · have hyi : y ≠ i := ne_of_mem_of_not_mem hy (hfree o')
        simp [hpages, hyi, hyf]
      · have hyi : y ≠ i := ne_of_mem_of_not_mem hy (hfree o')
        simp only [hpages, hyi, if_false]
        split <;> simp
    · simp only [Function.update_of_ne ho]
      refine h.other (by simp [addFree_first, Function.update_of_ne ho]) fun j hj => ?_
      have hji : j ≠ i := ne_of_mem_of_not_mem hj (hfree o')
      have hjf : ¬(j = a.first o ∧ a.first o ≠ pageIndexInvalid) := fun ⟨hjf, hf⟩ =>
        h.disjoint o o' (Ne.symm ho) j (hjf ▸ h.first_mem o hf) hj
      simp [hpages, hji, hjf]
  · -- `i` is on the one list `o`; the other lists are as before
    by_cases h₁ : o₁ = o
    · subst h₁
      rw [Function.update_of_ne (Ne.symm hne)] at hj₂
      rw [Function.update_self] at hj₁
      rcases List.mem_cons.1 hj₁ with rfl | hj₁
      · exact hfree o₂ hj₂
      · exact h.disjoint o₁ o₂ hne j hj₁ hj₂
    · rw [Function.update_of_ne h₁] at hj₁
      by_cases h₂ : o₂ = o
      · subst h₂
        rw [Function.update_self] at hj₂
        rcases List.mem_cons.1 hj₂ with rfl | hj₂
        · exact hfree o₁ hj₁
        · exact h.disjoint o₁ o₂ hne j hj₁ hj₂
      · rw [Function.update_of_ne h₂] at hj₂
        exact h.disjoint o₁ o₂ hne j hj₁ hj₂
  · rw [addFree_snd]
    exact (h.linked o).eq_stop_iff

/-- `pageheap_remove_free` of a page of a list takes it off that list, and says whether the list
    is then empty. -/
theorem removeFree (h : FreeLists a L) (hi : i ∈ L o) :
    FreeLists (pageheapRemoveFree a i o).1 (Function.update L o ((L o).erase i)) ∧
      ((pageheapRemoveFree a i o).2 = true ↔ (L o).erase i = []) := by
  have hl := h.linked o
  -- `i` has no element before it exactly when it is first
  have hfirst : (a.freePages i).prev = pageIndexInvalid ↔ i = a.first o := hl.prev_eq_stop_iff hi
  have hpmem : (a.freePages i).prev ≠ pageIndexInvalid → (a.freePages i).prev ∈ L o :=
    fun hpi => hl.prev_mem hi fun hif => hpi (hfirst.2 hif)
  have hnmem : (a.freePages i).next ≠ pageIndexInvalid → (a.freePages i).next ∈ L o :=
    hl.next_mem hi
  have hpn : (a.freePages i).prev ≠ (a.freePages i).next ∨
      (a.freePages i).prev = pageIndexInvalid := by
    by_cases hpi : (a.freePages i).prev = pageIndexInvalid
    · exact .inr hpi
    · exact .inl (hl.prev_ne_next hi fun hif => hpi (hfirst.2 hif))
  have hpages := removeFree_freePages (o := o) hpn
  refine ⟨⟨fun o' => ?_, fun o₁ o₂ hne j hj₁ hj₂ => ?_⟩, ?_⟩
  · by_cases ho : o' = o
    · subst ho
      have hhead : (pageheapRemoveFree a i o').1.first o' =
          if a.first o' = i then (a.freePages i).next else a.first o' := by
        by_cases hpi : (a.freePages i).prev = pageIndexInvalid
        · rw [removeFree_first, if_neg (not_not.2 hpi), Function.update_self,
            if_pos (hfirst.1 hpi).symm]
        · have hne : a.first o' ≠ i := fun hif => hpi (hfirst.2 hif.symm)
          rw [removeFree_first, if_pos hpi, if_neg hne]
      simp only [FreeList, Function.update_self, hhead]
      refine hl.unlink hi (fun hmem => h.ne_invalid hmem rfl) (fun hni => ?_) (fun hmem => ?_)
        (fun y _ _ hyn => ?_) (fun y _ _ hyp => ?_)
      · simp [hpages, hni]
      · have hpi : (a.freePages i).prev ≠ pageIndexInvalid := h.ne_invalid hmem
        simp [hpages, hpi, hpn.resolve_right hpi]
      · simp only [hpages, hyn, false_and, if_false]
        split <;> simp
      · simp only [hpages, hyp, false_and, if_false]
        split <;> simp
    · simp only [Function.update_of_ne ho]
      have hfirst' : (pageheapRemoveFree a i o).1.first o' = a.first o' := by
        rw [removeFree_first]
        split <;> simp [Function.update_of_ne ho]
      refine h.other hfirst' fun j hj => ?_
      -- the neighbours of `i` are on the list `o`, not on `o'`
      have hjn : ¬(j = (a.freePages i).next ∧ (a.freePages i).next ≠ pageIndexInvalid) :=
        fun ⟨hjn, hni⟩ => h.disjoint o o' (Ne.symm ho) j (hjn ▸ hnmem hni) hj
      have hjp : ¬(j = (a.freePages i).prev ∧ (a.freePages i).prev ≠ pageIndexInvalid) :=
        fun ⟨hjp, hpi⟩ => h.disjoint o o' (Ne.symm ho) j (hjp ▸ hpmem hpi) hj
      simp [hpages, hjn, hjp]
  · -- the list `o` only lost `i`
    have hsub : ∀ o'', j ∈ Function.update L o ((L o).erase i) o'' → j ∈ L o'' := fun o'' hj => by
      by_cases ho : o'' = o
      · subst ho
        rw [Function.update_self] at hj
        exact List.mem_of_mem_erase hj
      · rwa [Function.update_of_ne ho] at hj
    exact h.disjoint o₁ o₂ hne j (hsub o₁ hj₁) (hsub o₂ hj₂)
  · rw [removeFree_snd]
    constructor
    · rintro ⟨hpi, hni⟩
      obtain ⟨t, ht, htail⟩ := hl.eq_cons (hfirst.1 hpi ▸ h.ne_invalid hi)
      rw [← hfirst.1 hpi] at ht htail
      rw [ht, List.erase_cons_head]
      exact htail.eq_stop_iff.1 hni
    · intro hnil
      -- the list was `[i]`, so `i` is first and last
      have hone : L o = [i] := (List.erase_eq_nil_iff.1 hnil).resolve_left (List.ne_nil_of_mem hi)
      have hif : i = a.first o := by
        obtain ⟨t, ht, -⟩ := hl.eq_cons ((hl.eq_stop_iff.not).2 (hone ▸ List.cons_ne_nil i []))
        rw [hone] at ht
        exact (List.cons.inj ht).1
      obtain ⟨t, ht, htail⟩ := hl.eq_cons (hif ▸ h.ne_invalid hi)
      rw [hone, ← hif] at ht
      rw [← hif, ← (List.cons.inj ht).2] at htail
      exact ⟨hfirst.2 hif, htail.eq_stop_iff.2 rfl⟩

end FreeLists

end Nanos.Pageheap
