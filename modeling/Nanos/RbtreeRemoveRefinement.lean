import Nanos.RbtreeRefinement
import Nanos.RbtreeRemove

set_option autoImplicit false

/-!
# Removal on the heap

`remove_min` and `remove_internal` on the heap compute the functions of
`Nanos.RbtreeShape`. When the match is replaced by the minimum of its right
subtree, the C code writes through `parent(h)`: the one write outside the
subtree. It lands in the slot the caller overwrites next, because the root of
the subtree is by then the node the call was entered at.
-/

namespace Nanos.RbtreeRemoveRefinement
open ColorTree NodeHeap CTree RbtreeRefinement
open RbtreeShape (checkMoveRed_toList fixUp_toList)
open Rbtree (compareNodes)

variable {ν : Type} [DecidableEq ν]

/-! ## `remove_min` -/

omit [DecidableEq ν] in
theorem removeMin_node_cases {c : Color} {l r t' : CTree ν} {x m : ν}
    (h : RbtreeShape.removeMin (node c l x r) = some (t', m)) :
    (l = nil ∧ t' = nil ∧ m = x) ∨
      ∃ t₁ l', l ≠ nil ∧ RbtreeShape.checkMoveRed (node c l x r) .left = some t₁ ∧
        RbtreeShape.removeMin (t₁.child .left) = some (l', m) ∧
        RbtreeShape.fixUp (t₁.setChild .left l') = some t' := by
  rw [RbtreeShape.removeMin] at h
  cases hl : l.isNil with
  | true =>
    simp only [hl, if_true, Option.some.injEq, Prod.mk.injEq] at h
    exact .inl ⟨(isNil_iff l).1 hl, h.1.symm, h.2.symm⟩
  | false =>
    simp only [hl, Bool.false_eq_true, if_false] at h
    split at h
    · simp at h
    · rename_i t₁ hc
      simp only [Option.bind_eq_bind, Option.bind_eq_some_iff] at h
      obtain ⟨⟨l', m'⟩, hm, t'', hf, h⟩ := h
      simp only [Option.pure_def, Option.some.injEq, Prod.mk.injEq] at h
      obtain ⟨rfl, rfl⟩ := h
      exact .inr ⟨t₁, l', fun e => by simp [e] at hl, hc, hm, hf⟩

omit [DecidableEq ν] in
theorem removeMin_sublist (t : CTree ν) :
    ∀ {t' m}, RbtreeShape.removeMin t = some (t', m) → (m :: t'.toList).Sublist t.toList := by
  induction hs : t.size using Nat.strongRecOn generalizing t with
  | _ s ih =>
    subst hs
    intro t' m ht
    cases t with
    | nil => simp [RbtreeShape.removeMin] at ht
    | node c l x r =>
      rcases removeMin_node_cases ht with ⟨rfl, rfl, rfl⟩ | ⟨t₁, l', -, hc, hm, hf⟩
      · simp
      · have e₁ := RbtreeShape.checkMoveRed_toList hc
        have hlt := size_child_lt_of_toList .left (node c l x r) e₁ (by simp)
        have hsub := ih _ hlt (t₁.child .left) rfl hm
        -- the fix-up keeps the in-order list of `t₁` with `l'` for its left subtree
        rw [← e₁, RbtreeShape.fixUp_toList hf]
        cases t₁ with
        | nil => simp [RbtreeShape.removeMin] at hm
        | node c₁ L x₁ R =>
          simpa using hsub.append (List.Sublist.refl (x₁ :: R.toList))

/-- `remove_min(h, &removed)` on the heap computes the one on the tree, given fuel
    for the depth of the descent; the detached minimum has no left child. -/
theorem removeMin_sim : ∀ (fuel : ℕ) {H : Heap ν} {q : Option ν} {h : ν} {t t' : CTree ν} {m : ν},
    t.size < fuel → t.toList.Nodup → Holds H q (some h) t →
    RbtreeShape.removeMin t = some (t', m) →
    ∃ H' p', Rbtree.removeMin fuel H h = some (H', p', m) ∧ Holds H' q p' t' ∧
      (H' m).left = none ∧ ∀ y ∉ t.toList, H' y = H y
  | 0, _, _, _, _, _, _, hsz, _, _, _ => absurd hsz (Nat.not_lt_zero _)
  | fuel + 1, H, q, h, t, t', m, hsz, hn, hs, ht => by
    cases t with
    | nil => simp [RbtreeShape.removeMin] at ht
    | node c l x r =>
      have hx : h = x := Option.some.inj hs.1.1
      subst x
      have hl : Rep H (H h).left l := hs.1.2.2.1
      rcases removeMin_node_cases ht with ⟨rfl, rfl, rfl⟩ | ⟨t₁, l', hl0, hc, hm, hf⟩
      · -- no left child: `h` is the minimum
        have e : (H m).left = none := hl
        exact ⟨H, none, by simp [Rbtree.removeMin, e], by simp [Holds], e, fun _ _ => rfl⟩
      · obtain ⟨z, hz⟩ := Option.ne_none_iff_exists'.1 fun e => hl0 ((rep_none_iff hl).1 e)
        obtain ⟨H₁, h₁, e₁, hs₁, hf₁⟩ := checkMoveRed_sim hn hs hc
        have he₁ := checkMoveRed_toList hc
        cases t₁ with
        | nil => simp [Holds] at hs₁
        | node c₁ L x₁ R =>
          have hx₁ : h₁ = x₁ := Option.some.inj hs₁.1.1
          subst x₁
          have hn₁ : (nodeOn .left c₁ L h₁ R).toList.Nodup := by rw [nodeOn_left, he₁]; exact hn
          have hL : Rep H₁ (H₁ h₁).left L := hs₁.1.2.2.1
          have hm' : RbtreeShape.removeMin L = some (l', m) := hm
          have hLn : L ≠ nil := by rintro rfl; simp [RbtreeShape.removeMin] at hm'
          obtain ⟨z₁, hz₁⟩ := Option.ne_none_iff_exists'.1 fun e => hLn ((rep_none_iff hL).1 e)
          have hszL : L.size < fuel := by
            have := size_child_lt_of_toList .left (node c l h r) he₁ (by simp)
            simp only [child_left, size_node] at this hsz ⊢
            omega
          obtain ⟨H₂, p₂, e₂, hs₂, hm₂, hf₂⟩ :=
            removeMin_sim fuel hszL (nodup_nodeOn.1 hn₁).1 ⟨hz₁ ▸ hL, hs₁.2.2.1⟩ hm'
          have hsub := removeMin_sublist L hm'
          have hl'L : l'.toList.Sublist L.toList := (List.sublist_cons_self m _).trans hsub
          obtain ⟨hs₃, hf₃⟩ := holds_near_of_frame hn₁ hs₁ hs₂ hl'L hf₂
          have hn₃ : (node c₁ l' h₁ R).toList.Nodup := by
            simpa using (hl'L.append (List.Sublist.refl (h₁ :: R.toList))).nodup (by simpa using hn₁)
          obtain ⟨H₄, h₄, e₄, hs₄, hf₄⟩ := fixUp_sim hn₃ hs₃ (by simpa using hf)
          -- the minimum lies in `L`, apart from the nodes that stay in the tree
          have hmL : m ∈ L.toList := hsub.subset (List.mem_cons_self)
          obtain ⟨-, -, hhL, -, hLR⟩ := nodup_nodeOn.1 hn₁
          have hmh : m ≠ h₁ := fun e => hhL (e ▸ hmL)
          have hml' : m ∉ l'.toList := (List.nodup_cons.1 (hsub.nodup (nodup_nodeOn.1 hn₁).1)).1
          have hm₄ : m ∉ (node c₁ l' h₁ R).toList := by
            simp only [toList_node, List.mem_append, List.mem_cons, not_or]
            exact ⟨hml', hmh, hLR m hmL⟩
          refine ⟨H₄, some h₄, ?_, hs₄, ?_, fun y hy => ?_⟩
          · simp [Rbtree.removeMin, hz, e₁, hz₁, e₂, e₄]
          · rw [hf₄ m hm₄, Heap.setChild_ne _ _ _ hmh, hm₂]
          · have hy₁ : y ∉ (nodeOn .left c₁ L h₁ R).toList := by rw [nodeOn_left, he₁]; exact hy
            have hy₃ : y ∉ (node c₁ l' h₁ R).toList := fun e => hy₁ (by
              simpa using (hl'L.append (List.Sublist.refl (h₁ :: R.toList))).subset (by simpa using e))
            rw [hf₄ y hy₃, hf₃ y hy₁, hf₁ y hy]

/-- The writes of `remove_internal` that put the detached minimum `m` in the place of
    the match `g`: `m` takes the parent and color of `g`, its left subtree, and the
    rest of the right subtree. -/
theorem graft_holds {H₂ H₃ : Heap ν} {q p₃ : Option ν} {g m : ν} {c₂ : Color}
    {l₂ r₂ rnew : CTree ν} (hn : (node c₂ l₂ g r₂).toList.Nodup)
    (hs₂ : Holds H₂ q (some g) (node c₂ l₂ g r₂)) (hsub : (m :: rnew.toList).Sublist r₂.toList)
    (hs₃ : Holds H₃ (some g) p₃ rnew) (hf₃ : ∀ y ∉ r₂.toList, H₃ y = H₂ y) :
    Holds (((((H₃.setParentOf p₃ (some m)).setParentColor m q c₂).setParentOf (H₂ g).left
        (some m)).setChild m .left (H₂ g).left).setChild m .right p₃) q (some m)
        (node c₂ l₂ m rnew) ∧
      ∀ y ∉ (node c₂ l₂ g r₂).toList, (((((H₃.setParentOf p₃ (some m)).setParentColor m q
        c₂).setParentOf (H₂ g).left (some m)).setChild m .left (H₂ g).left).setChild m .right
        p₃) y = H₂ y := by
  obtain ⟨hnl, hnr, hgl, hgr, hlr⟩ := nodup_node.1 hn
  have hmr : m ∈ r₂.toList := hsub.subset List.mem_cons_self
  have hrn : ∀ y ∈ rnew.toList, y ∈ r₂.toList := fun y hy => hsub.subset (List.mem_cons_of_mem m hy)
  have hnm := hsub.nodup hnr
  have hmn : m ∉ rnew.toList := (List.nodup_cons.1 hnm).1
  have hml : m ∉ l₂.toList := fun h => hlr m h hmr
  have hl : Holds H₂ (some g) (H₂ g).left l₂ := ⟨hs₂.1.2.2.1, hs₂.2.2.1⟩
  generalize hpl : (H₂ g).left = pl at hl ⊢
  -- `if (rnew) set_parent(rnew, rmin)` and `set_parent_and_color(rmin, parent(h), get_color(h))`
  generalize hH₄ : H₃.setParentOf p₃ (some m) = H₄
  have hs₄ : Holds H₄ (some m) p₃ rnew := hH₄ ▸ holds_setParentOf (List.nodup_cons.1 hnm).2 hs₃
  have hf₄ : ∀ y ∉ rnew.toList, H₄ y = H₃ y := fun y hy => by
    rw [← hH₄, Heap.setParentOf_of_ne _ _ fun e => hy (rep_some_mem (e ▸ hs₃.1))]
  generalize hH₅ : H₄.setParentColor m q c₂ = H₅
  have hf₅ : ∀ y, y ≠ m → H₅ y = H₄ y := fun y hy => by rw [← hH₅, Heap.setParentColor_ne _ _ _ hy]
  have hl₅ : Holds H₅ (some g) pl l₂ := holds_frame hl fun y hy => by
    rw [hf₅ y fun e => hml (e ▸ hy), hf₄ y fun e => hlr y hy (hrn y e), hf₃ y (hlr y hy)]
  -- `if (child(h, left)) set_parent(child(h, left), rmin)`
  generalize hH₆ : H₅.setParentOf pl (some m) = H₆
  have hpl' : ∀ y, pl = some y → y ∈ l₂.toList := fun y e => rep_some_mem (e ▸ hl.1)
  have hf₆ : ∀ y ∉ l₂.toList, H₆ y = H₅ y := fun y hy => by
    rw [← hH₆, Heap.setParentOf_of_ne _ _ fun e => hy (hpl' y e)]
  have hl₆ : Holds H₆ (some m) pl l₂ := hH₆ ▸ holds_setParentOf hnl hl₅
  have hr₆ : Holds H₆ (some m) p₃ rnew := holds_frame hs₄ fun y hy => by
    rw [hf₆ y fun e => hlr y e (hrn y hy), hf₅ y fun e => hmn (e ▸ hy)]
  -- `child(rmin, left) = child(h, left)` and `child(rmin, right) = rnew`
  have hf₈ : ∀ y, y ≠ m → (H₆.setChild m .left pl).setChild m .right p₃ y = H₆ y := fun y hy => by
    rw [Heap.setChild_ne _ _ _ hy, Heap.setChild_ne _ _ _ hy]
  have hm₆ : H₆ m = { H₄ m with parent := q, color := c₂ } := by
    rw [hf₆ m hml, ← hH₅, Heap.setParentColor_self]
  refine ⟨⟨⟨rfl, by simp [hm₆], ?_, ?_⟩, by simp [hm₆], ?_, ?_⟩, fun y hy => ?_⟩
  · simpa using rep_frame_outside hl₆.1 fun y hy => hf₈ y fun e => hml (e ▸ hy)
  · simpa using rep_frame_outside hr₆.1 fun y hy => hf₈ y fun e => hmn (e ▸ hy)
  · exact links_frame_outside hl₆.2 fun y hy => hf₈ y fun e => hml (e ▸ hy)
  · exact links_frame_outside hr₆.2 fun y hy => hf₈ y fun e => hmn (e ▸ hy)
  · simp only [toList_node, List.mem_append, List.mem_cons, not_or] at hy
    obtain ⟨hyl, hyg, hyr⟩ := hy
    have hym : y ≠ m := fun e => hyr (e ▸ hmr)
    rw [hf₈ y hym, hf₆ y hyl, hf₅ y hym, hf₄ y fun e => hyr (hrn y e), hf₃ y hyr]

/-- `H'` agrees with `H` outside `S`, except that the child slot of `q` that held
    `p` may have been overwritten: the write through `parent(h)` that
    `remove_internal` makes when the match is replaced. -/
def Framed (H H' : Heap ν) (q p : Option ν) (S : List ν) : Prop :=
  ∀ y ∉ S, H' y = H y ∨
    (q = some y ∧ p ≠ none ∧ ∃ v, H' y = (H y).setChild (if (H y).left = p then .left else .right) v)

theorem framed_of_frame {H H' : Heap ν} {q p : Option ν} {S : List ν} (h : ∀ y ∉ S, H' y = H y) :
    Framed H H' q p S :=
  fun y hy => .inl (h y hy)

theorem framed_parent {H H₁ : Heap ν} {h : ν} {p : Option ν} {hand : Hand} {S : List ν}
    {far : CTree ν} (hp : (H h).child hand = p) (hfar : Rep H ((H h).child hand.other) far)
    (hpf : ∀ z, p = some z → z ∉ far.toList) (hf : Framed H H₁ (some h) p S) (hh : h ∉ S) :
    (∀ y ∉ S, y ≠ h → H₁ y = H y) ∧ (H₁ h).parent = (H h).parent ∧ (H₁ h).color = (H h).color ∧
      (H₁ h).child hand.other = (H h).child hand.other := by
  refine ⟨fun y hy hyh => ?_, ?_⟩
  · rcases hf y hy with e | ⟨e, -⟩
    · exact e
    · exact absurd (Option.some.inj e).symm hyh
  rcases hf h hh with e | ⟨-, hp0, v, e⟩
  · simp [e]
  · -- the slot written is the one on `hand`: the other one does not hold `p`
    have hslot : (if (H h).left = p then Hand.left else .right) = hand := by
      cases hand with
      | left => simp [← hp]
      | right =>
        obtain ⟨z, rfl⟩ := Option.ne_none_iff_exists'.1 hp0
        have hfar' : Rep H (H h).left far := hfar
        have hne : (H h).left ≠ some z := fun e' => hpf z rfl (rep_some_mem (e' ▸ hfar'))
        simp [hne]
    rw [e, hslot]
    simp

section removeInternal
variable {κ : Type} [LinearOrder κ] (key : ν → κ) (k : ν)

omit [DecidableEq ν] in
theorem removeInternal_node_cases {c : Color} {l r t' : CTree ν} {x : ν} {res : Bool}
    (h : RbtreeShape.removeInternal key k (node c l x r) = some (t', res)) :
    (compareNodes key k x = .lt ∧ l = nil ∧ t' = node c l x r ∧ res = false) ∨
    (compareNodes key k x = .lt ∧ l ≠ nil ∧ ∃ t₁ L', RbtreeShape.checkMoveRed (node c l x r) .left = some t₁ ∧
      RbtreeShape.removeInternal key k (t₁.child .left) = some (L', res) ∧
      RbtreeShape.fixUp (t₁.setChild .left L') = some t') ∨
    (compareNodes key k x ≠ .lt ∧ compareNodes key k x = .gt ∧ r = nil ∧ t' = node c l x r ∧
      res = false) ∨
    (compareNodes key k x ≠ .lt ∧ ¬(compareNodes key k x = .gt ∧ r = nil) ∧ ∃ c₁ l₁ x₁ r₁,
      (if l.isRed then RbtreeShape.rotate .right (node c l x r) else some (node c l x r)) =
        some (node c₁ l₁ x₁ r₁) ∧
      ((compareNodes key k x₁ = .eq ∧ l₁ = nil ∧ r₁ = nil ∧ t' = nil ∧ res = true) ∨
       (¬(compareNodes key k x₁ = .eq ∧ l₁ = nil ∧ r₁ = nil) ∧ ∃ c₂ l₂ x₂ r₂,
        RbtreeShape.checkMoveRed (node c₁ l₁ x₁ r₁) .right = some (node c₂ l₂ x₂ r₂) ∧
        ((compareNodes key k x₂ ≠ .eq ∧ r₂ = nil ∧ t' = node c₂ l₂ x₂ r₂ ∧ res = false) ∨
         (compareNodes key k x₂ ≠ .eq ∧ r₂ ≠ nil ∧ ∃ r', RbtreeShape.removeInternal key k r₂ = some (r', res) ∧
           RbtreeShape.fixUp (node c₂ l₂ x₂ r') = some t') ∨
         (compareNodes key k x₂ = .eq ∧ r₂ ≠ nil ∧ ∃ rnew rmin, RbtreeShape.removeMin r₂ = some (rnew, rmin) ∧
           RbtreeShape.fixUp (node c₂ l₂ rmin rnew) = some t' ∧ res = true))))) := by
  rw [RbtreeShape.removeInternal] at h
  by_cases hlt : compareNodes key k x = .lt
  · simp only [hlt, if_true] at h
    cases hl : l.isNil with
    | true =>
      simp only [hl, if_true, Option.some.injEq, Prod.mk.injEq] at h
      exact .inl ⟨hlt, (isNil_iff l).1 hl, h.1.symm, h.2.symm⟩
    | false =>
      simp only [hl, Bool.false_eq_true, if_false] at h
      split at h
      · simp at h
      · rename_i t₁ hc
        simp only [Option.bind_eq_bind, Option.bind_eq_some_iff] at h
        obtain ⟨⟨L', res'⟩, hL, t'', hf, h⟩ := h
        simp only [Option.pure_def, Option.some.injEq, Prod.mk.injEq] at h
        obtain ⟨rfl, rfl⟩ := h
        exact .inr (.inl ⟨hlt, fun e => by simp [e] at hl, t₁, L', hc, hL, hf⟩)
  · simp only [hlt, if_false] at h
    by_cases hgt : compareNodes key k x = .gt ∧ r.isNil = true
    · simp only [hgt, and_self, if_true, Option.some.injEq, Prod.mk.injEq] at h
      exact .inr (.inr (.inl ⟨hlt, hgt.1, (isNil_iff r).1 hgt.2, h.1.symm, h.2.symm⟩))
    · have hgt' : ¬(compareNodes key k x = .gt ∧ r = nil) := fun e => hgt ⟨e.1, by simp [e.2]⟩
      simp only [hgt, if_false] at h
      refine .inr (.inr (.inr ⟨hlt, hgt', ?_⟩))
      split at h
      · simp at h
      · simp at h
      · rename_i c₁ l₁ x₁ r₁ hr
        refine ⟨c₁, l₁, x₁, r₁, hr, ?_⟩
        by_cases hleaf : compareNodes key k x₁ = .eq ∧ l₁.isNil = true ∧ r₁.isNil = true
        · simp only [hleaf, and_self, if_true, Option.some.injEq, Prod.mk.injEq] at h
          exact .inl ⟨hleaf.1, (isNil_iff l₁).1 hleaf.2.1, (isNil_iff r₁).1 hleaf.2.2, h.1.symm,
            h.2.symm⟩
        · have hleaf' : ¬(compareNodes key k x₁ = .eq ∧ l₁ = nil ∧ r₁ = nil) := fun e =>
            hleaf ⟨e.1, by simp [e.2.1], by simp [e.2.2]⟩
          simp only [hleaf, if_false] at h
          refine .inr ⟨hleaf', ?_⟩
          split at h
          · simp at h
          · simp at h
          · rename_i c₂ l₂ x₂ r₂ hm
            refine ⟨c₂, l₂, x₂, r₂, hm, ?_⟩
            by_cases hne : compareNodes key k x₂ = .eq
            · simp only [hne, ne_eq, not_true_eq_false, if_false] at h
              cases hr₂ : r₂.isNil with
              | true => simp [hr₂] at h
              | false =>
                simp only [hr₂, Bool.false_eq_true, if_false, Option.bind_eq_bind,
                  Option.bind_eq_some_iff] at h
                obtain ⟨⟨rnew, rmin⟩, hR, t'', hf, h⟩ := h
                simp only [Option.pure_def, Option.some.injEq, Prod.mk.injEq] at h
                obtain ⟨rfl, rfl⟩ := h
                exact .inr (.inr ⟨hne, fun e => by simp [e] at hr₂, rnew, rmin, hR, hf, rfl⟩)
            · simp only [hne, ne_eq, not_false_eq_true, if_true] at h
              cases hr₂ : r₂.isNil with
              | true =>
                simp only [hr₂, if_true, Option.some.injEq, Prod.mk.injEq] at h
                exact .inl ⟨hne, (isNil_iff r₂).1 hr₂, h.1.symm, h.2.symm⟩
              | false =>
                simp only [hr₂, Bool.false_eq_true, if_false, Option.bind_eq_bind,
                  Option.bind_eq_some_iff] at h
                obtain ⟨⟨r', res'⟩, hR, t'', hf, h⟩ := h
                simp only [Option.pure_def, Option.some.injEq, Prod.mk.injEq] at h
                obtain ⟨rfl, rfl⟩ := h
                exact .inr (.inl ⟨hne, fun e => by simp [e] at hr₂, r', hR, hf⟩)

omit [DecidableEq ν] in
theorem removeInternal_sublist (t : CTree ν) :
    ∀ {t' res}, RbtreeShape.removeInternal key k t = some (t', res) → t'.toList.Sublist t.toList := by
  induction hs : t.size using Nat.strongRecOn generalizing t with
  | _ s ih =>
    subst hs
    intro t' res ht
    cases t with
    | nil =>
      simp only [RbtreeShape.removeInternal, Option.some.injEq, Prod.mk.injEq] at ht
      rw [← ht.1]
    | node c l x r =>
      rcases removeInternal_node_cases key k ht with
        ⟨-, -, rfl, -⟩ | ⟨-, -, t₁, L', hc, hL, hf⟩ | ⟨-, -, -, rfl, -⟩ |
        ⟨-, -, c₁, l₁, x₁, r₁, hr, ⟨-, -, -, rfl, -⟩ | ⟨-, c₂, l₂, x₂, r₂, hm, hcase⟩⟩
      · exact List.Sublist.refl _
      · have e₁ := checkMoveRed_toList hc
        have hsub := ih _ (size_child_lt_of_toList .left (node c l x r) e₁ (by simp)) _ rfl hL
        rw [fixUp_toList hf, ← e₁]
        cases t₁ with
        | nil => simp at e₁
        | node c₁ L x₁ R => simpa using hsub.append (List.Sublist.refl (x₁ :: R.toList))
      · exact List.Sublist.refl _
      · exact List.nil_sublist _
      · -- the in-order list of `node c₂ l₂ x₂ r₂` is that of the tree
        have e₂ : (node c₂ l₂ x₂ r₂).toList = (node c l x r).toList :=
          (checkMoveRed_toList hm).trans (RbtreeRemove.toList_of_rotateIf hr)
        rw [← e₂]
        rcases hcase with ⟨-, -, rfl, -⟩ | ⟨-, -, r', hR, hf⟩ | ⟨-, -, rnew, rmin, hR, hf, -⟩
        · exact List.Sublist.refl _
        · have hsub := ih _ (size_child_lt_of_toList .right (node c l x r) e₂ (by simp)) r₂ rfl hR
          rw [fixUp_toList hf]
          simpa using (List.Sublist.refl l₂.toList).append (hsub.cons_cons x₂)
        · have hsub := removeMin_sublist r₂ hR
          rw [fixUp_toList hf]
          simpa using (List.Sublist.refl l₂.toList).append (hsub.cons x₂)

omit [DecidableEq ν] in
theorem rotateIf_root {c c₁ : Color} {l r l₁ r₁ : CTree ν} {x x₁ : ν}
    (hr : (if l.isRed then RbtreeShape.rotate .right (node c l x r) else some (node c l x r)) =
      some (node c₁ l₁ x₁ r₁)) :
    (x₁ = x ∧ l₁ = l) ∨ (x₁ ∈ l.toList ∧ ∀ y ∈ l₁.toList, y ∈ l.toList) := by
  split at hr
  · obtain ⟨cl, a, y, b, rfl⟩ : ∃ cl a y b, l = node cl a y b := by
      cases l with
      | nil => simp [RbtreeShape.rotate] at hr
      | node cl a y b => exact ⟨cl, a, y, b, rfl⟩
    simp only [RbtreeShape.rotate, Option.some.injEq, node.injEq] at hr
    obtain ⟨-, rfl, rfl, -⟩ := hr
    exact .inr ⟨by simp, fun y hy => by simp [hy]⟩
  · simp only [Option.some.injEq, node.injEq] at hr
    exact .inl ⟨hr.2.2.1.symm, hr.2.1.symm⟩

omit [DecidableEq ν] in
theorem checkMoveRed_right_root {c₁ c₂ : Color} {l₁ r₁ l₂ r₂ : CTree ν} {x₁ x₂ : ν}
    (hm : RbtreeShape.checkMoveRed (node c₁ l₁ x₁ r₁) .right = some (node c₂ l₂ x₂ r₂)) :
    x₂ = x₁ ∨ x₂ ∈ l₁.toList := by
  unfold RbtreeShape.checkMoveRed at hm
  simp only at hm
  split at hm
  · obtain ⟨t₁, h₁, hm⟩ := Option.bind_eq_some_iff.1 hm
    obtain ⟨c, cl, a, y, b, cr, d, z, e, w, h₀, rfl⟩ := colorFlip_eq_some h₁
    simp only [node.injEq] at h₀
    obtain ⟨-, rfl, rfl, -⟩ := h₀
    split at hm
    · simp only [Option.pure_def, Option.some.injEq, node.injEq] at hm
      exact .inl hm.2.2.1.symm
    · -- the rotation to the right lifts the left child of the flipped node
      simp only [reduceCtorEq, if_false, Option.pure_def, Option.bind_eq_bind, Option.bind_some,
        Option.bind_eq_some_iff] at hm
      obtain ⟨t₃, h₃, hm⟩ := hm
      obtain ⟨c', cl', a', y', b', cr', d', z', e', w', rfl, h₄⟩ := colorFlip_eq_some hm
      simp only [RbtreeShape.rotate, Option.some.injEq, node.injEq] at h₃
      simp only [node.injEq] at h₄
      exact .inr (by simp [h₄.2.2.1, h₃.2.2.1])
  · simp only [Option.pure_def, Option.some.injEq, node.injEq] at hm
    exact .inl hm.2.2.1.symm

omit [DecidableEq ν] in
/-- In the branch that replaces the match, the root after the rotations is the node
    the call was entered at: the nodes lifted above it have smaller keys. -/
theorem replace_root {c c₁ c₂ : Color} {l r l₁ r₁ l₂ r₂ : CTree ν} {x x₁ x₂ : ν}
    (ho : Ordered key (node c l x r)) (hlt : compareNodes key k x ≠ .lt)
    (hr : (if l.isRed then RbtreeShape.rotate .right (node c l x r) else some (node c l x r)) =
      some (node c₁ l₁ x₁ r₁))
    (hm : RbtreeShape.checkMoveRed (node c₁ l₁ x₁ r₁) .right = some (node c₂ l₂ x₂ r₂))
    (heq : compareNodes key k x₂ = .eq) : x₂ = x := by
  have hl : ∀ y ∈ l.toList, key y < key x := (ordered_split ho).1
  have hx : key x ≤ key k := not_lt.1 (by simpa using hlt)
  have hk : key k = key x₂ := by simpa using heq
  have hnl : x₂ ∉ l.toList := fun h => absurd (hl x₂ h) (by rw [← hk]; exact not_lt.2 hx)
  rcases rotateIf_root hr with ⟨rfl, rfl⟩ | ⟨h₁, hsub⟩ <;>
    rcases checkMoveRed_right_root hm with rfl | h₂
  · rfl
  · exact absurd h₂ hnl
  · exact absurd h₁ hnl
  · exact absurd (hsub _ h₂) hnl

/-- `remove_internal` on the heap, with `fuel` for the depth, computes the tree function
    on every tree it can descend, writing nothing outside it but the parent's slot. -/
def RemoveSim (fuel : ℕ) : Prop :=
  ∀ {H : Heap ν} {q p : Option ν} {t t' : CTree ν} {res : Bool}, t.size < fuel → t.toList.Nodup →
    Ordered key t → (∀ y, q = some y → y ∉ t.toList) → Holds H q p t →
    RbtreeShape.removeInternal key k t = some (t', res) →
    ∃ H' p', Rbtree.removeInternal key fuel H p k = some (H', p', res) ∧ Holds H' q p' t' ∧
      Framed H H' q p t.toList

theorem removeInternal_sim_lt {fuel : ℕ} (ih : RemoveSim key k fuel) {H : Heap ν} {q : Option ν}
    {h : ν} {c : Color} {l r t₁ L' t' : CTree ν} {res : Bool} (hsz : (node c l h r).size < fuel + 1)
    (hn : (node c l h r).toList.Nodup) (ho : Ordered key (node c l h r))
    (hs : Holds H q (some h) (node c l h r)) (hlt : compareNodes key k h = .lt) (hl : l ≠ nil)
    (hc : RbtreeShape.checkMoveRed (node c l h r) .left = some t₁)
    (hL : RbtreeShape.removeInternal key k (t₁.child .left) = some (L', res))
    (hf : RbtreeShape.fixUp (t₁.setChild .left L') = some t') :
    ∃ H' p', Rbtree.removeInternal key (fuel + 1) H (some h) k = some (H', p', res) ∧
      Holds H' q p' t' ∧ ∀ y ∉ (node c l h r).toList, H' y = H y := by
  obtain ⟨z, hz⟩ := Option.ne_none_iff_exists'.1 fun e => hl ((rep_none_iff hs.1.2.2.1).1 e)
  obtain ⟨H₁, h₁, e₁, hs₁, hf₁⟩ := checkMoveRed_sim hn hs hc
  have he₁ := checkMoveRed_toList hc
  cases t₁ with
  | nil => simp [Holds] at hs₁
  | node c₁ L x₁ R =>
    have hx₁ : h₁ = x₁ := Option.some.inj hs₁.1.1
    subst x₁
    have hn₁ : (nodeOn .left c₁ L h₁ R).toList.Nodup := by rw [nodeOn_left, he₁]; exact hn
    obtain ⟨hnL, -, hhL, -, hLR⟩ := nodup_nodeOn.1 hn₁
    have hszL : L.size < fuel := by
      have := size_child_lt_of_toList .left (node c l h r) he₁ (by simp)
      simp only [child_left, size_node] at this hsz ⊢
      omega
    have ho₁ : Ordered key (node c₁ L h₁ R) := ordered_of_toList_eq he₁ ho
    obtain ⟨H₂, p₂, e₂, hs₂, hf₂⟩ := ih hszL hnL ho₁.children.1
      (fun y e => Option.some.inj e ▸ hhL) ⟨hs₁.1.2.2.1, hs₁.2.2.1⟩ hL
    have hL₁ : Rep H₁ ((H₁ h₁).child .left) L := hs₁.1.2.2.1
    obtain ⟨hfr, hh⟩ := framed_parent (rfl : (H₁ h₁).child .left = (H₁ h₁).left) hs₁.1.2.2.2
      (fun z e => hLR z (rep_some_mem (e ▸ hL₁))) hf₂ hhL
    obtain ⟨H₃, h₃, e₃, hs₃, hf₃⟩ :=
      descend_sim_of_sublist hn₁ hs₁ hs₂ (removeInternal_sublist key k L hL) hfr hh (by simpa using hf)
    refine ⟨H₃, some h₃, ?_, hs₃, fun y hy => ?_⟩
    · simp [Rbtree.removeInternal, hlt, hz, e₁, e₂, e₃]
    · rw [hf₃ y (by rwa [nodeOn_left, he₁]), hf₁ y hy]

omit [LinearOrder κ] in
theorem removeInternal_rotateIf_sim {H : Heap ν} {q : Option ν} {h x₁ : ν} {c c₁ : Color}
    {l r l₁ r₁ : CTree ν} (hn : (node c l h r).toList.Nodup) (hs : Holds H q (some h) (node c l h r))
    (hr : (if l.isRed then RbtreeShape.rotate .right (node c l h r) else some (node c l h r)) =
      some (node c₁ l₁ x₁ r₁)) :
    ∃ H₁, (if Rbtree.isRed H (H h).left = true then Rbtree.rotate H .right h else pure (H, h)) =
        some (H₁, x₁) ∧ Holds H₁ q (some x₁) (node c₁ l₁ x₁ r₁) ∧
      ∀ y ∉ (node c l h r).toList, H₁ y = H y := by
  have hl : Rep H (H h).left l := hs.1.2.2.1
  rw [isRed_of_rep hl]
  obtain ⟨H₁, h₁, e, hs₁, hf, -⟩ := rotateIf_sim hn hs hr
  have hx : h₁ = x₁ := Option.some.inj hs₁.1.1
  subst hx
  exact ⟨H₁, e, hs₁, hf⟩

theorem removeInternal_sim_ge {fuel : ℕ} (ih : RemoveSim key k fuel) {H : Heap ν} {q : Option ν}
    {h : ν} {c c₁ : Color} {l r l₁ r₁ t' : CTree ν} {x₁ : ν} {res : Bool}
    (hsz : (node c l h r).size < fuel + 1) (hn : (node c l h r).toList.Nodup)
    (ho : Ordered key (node c l h r)) (hq : ∀ y, q = some y → y ∉ (node c l h r).toList)
    (hs : Holds H q (some h) (node c l h r)) (hlt : compareNodes key k h ≠ .lt)
    (hgt : ¬(compareNodes key k h = .gt ∧ r = nil))
    (hr : (if l.isRed then RbtreeShape.rotate .right (node c l h r) else some (node c l h r)) =
      some (node c₁ l₁ x₁ r₁))
    (hcase : (compareNodes key k x₁ = .eq ∧ l₁ = nil ∧ r₁ = nil ∧ t' = nil ∧ res = true) ∨
       (¬(compareNodes key k x₁ = .eq ∧ l₁ = nil ∧ r₁ = nil) ∧ ∃ c₂ l₂ x₂ r₂,
        RbtreeShape.checkMoveRed (node c₁ l₁ x₁ r₁) .right = some (node c₂ l₂ x₂ r₂) ∧
        ((compareNodes key k x₂ ≠ .eq ∧ r₂ = nil ∧ t' = node c₂ l₂ x₂ r₂ ∧ res = false) ∨
         (compareNodes key k x₂ ≠ .eq ∧ r₂ ≠ nil ∧ ∃ r', RbtreeShape.removeInternal key k r₂ = some (r', res) ∧
           RbtreeShape.fixUp (node c₂ l₂ x₂ r') = some t') ∨
         (compareNodes key k x₂ = .eq ∧ r₂ ≠ nil ∧ ∃ rnew rmin, RbtreeShape.removeMin r₂ = some (rnew, rmin) ∧
           RbtreeShape.fixUp (node c₂ l₂ rmin rnew) = some t' ∧ res = true)))) :
    ∃ H' p', Rbtree.removeInternal key (fuel + 1) H (some h) k = some (H', p', res) ∧
      Holds H' q p' t' ∧ Framed H H' q (some h) (node c l h r).toList := by
  have hgt' : ¬(compareNodes key k h = .gt ∧ (H h).right = none) := fun e =>
    hgt ⟨e.1, (rep_none_iff hs.1.2.2.2).1 e.2⟩
  obtain ⟨H₁, e₁, hs₁, hf₁⟩ := removeInternal_rotateIf_sim hn hs hr
  have he₁ := RbtreeRemove.toList_of_rotateIf hr
  have hn₁ : (node c₁ l₁ x₁ r₁).toList.Nodup := by rw [he₁]; exact hn
  -- the leaf test reads the same on the heap
  have hleaf : (compareNodes key k x₁ = .eq ∧ (H₁ x₁).left = none ∧ (H₁ x₁).right = none) ↔
      (compareNodes key k x₁ = .eq ∧ l₁ = nil ∧ r₁ = nil) := by
    rw [rep_none_iff hs₁.1.2.2.1, rep_none_iff hs₁.1.2.2.2]
  simp only [Rbtree.removeInternal, if_neg hlt, if_neg hgt', e₁, Option.bind_eq_bind, Option.bind_some]
  rcases hcase with ⟨hk, hl₁, hr₁, rfl, rfl⟩ | ⟨hne, c₂, l₂, x₂, r₂, hm, hcase⟩
  · refine ⟨H₁, none, by rw [if_pos (hleaf.2 ⟨hk, hl₁, hr₁⟩)]; rfl, by simp [Holds],
      framed_of_frame hf₁⟩
  · rw [if_neg (mt hleaf.1 hne)]
    obtain ⟨H₂, g₂, e₂, hs₂, hf₂⟩ := checkMoveRed_sim hn₁ hs₁ hm
    have hx₂ : g₂ = x₂ := Option.some.inj hs₂.1.1
    subst hx₂
    have he₂ : (node c₂ l₂ g₂ r₂).toList = (node c l h r).toList := (checkMoveRed_toList hm).trans he₁
    have hn₂ : (node c₂ l₂ g₂ r₂).toList.Nodup := by rw [he₂]; exact hn
    have hf₁₂ : ∀ y ∉ (node c l h r).toList, H₂ y = H y := fun y hy => by
      rw [hf₂ y (by rwa [he₁]), hf₁ y hy]
    have hr₂ : Rep H₂ (H₂ g₂).right r₂ := hs₂.1.2.2.2
    rw [e₂]
    simp only [Option.bind_some]
    rcases hcase with ⟨hk, rfl, rfl, rfl⟩ | ⟨hk, hr₂n, r', hR, hf⟩ | ⟨hk, hr₂n, rnew, rmin, hR, hf, rfl⟩
    · have e : (H₂ g₂).right = none := hr₂
      exact ⟨H₂, some g₂, by simp [hk, e], hs₂, framed_of_frame hf₁₂⟩
    · -- the descent to the right: the same step as to the left, on the other side
      obtain ⟨z, hz⟩ := Option.ne_none_iff_exists'.1 fun e => hr₂n ((rep_none_iff hr₂).1 e)
      have hn₂' : (nodeOn .right c₂ r₂ g₂ l₂).toList.Nodup := hn₂
      obtain ⟨hnR, -, hhR, -, hRl⟩ := nodup_nodeOn.1 hn₂'
      have hszR : r₂.size < fuel := by
        have := size_child_lt_of_toList .right (node c l h r) he₂ (by simp)
        simp only [child_right, size_node] at this hsz ⊢
        omega
      have hoR : Ordered key r₂ := (ordered_of_toList_eq he₂ ho).children.2
      have hz₂ : Rep H₂ (some z) r₂ := hz ▸ hr₂
      obtain ⟨H₃, p₃, e₃, hs₃, hf₃⟩ := ih hszR hnR hoR (fun y e => Option.some.inj e ▸ hhR)
        ⟨hz₂, hs₂.2.2.2⟩ hR
      have hzc : (H₂ g₂).child .right = some z := hz
      obtain ⟨hfr, hh⟩ := framed_parent hzc hs₂.1.2.2.1
        (fun z' e => hRl z' (rep_some_mem (e ▸ hz₂))) hf₃ hhR
      obtain ⟨H₄, h₄, e₄, hs₄, hf₄⟩ :=
        descend_sim_of_sublist hn₂' hs₂ hs₃ (removeInternal_sublist key k r₂ hR) hfr hh (by simpa using hf)
      refine ⟨H₄, some h₄, by simp [hk, hz, e₃, e₄], hs₄, framed_of_frame fun y hy => ?_⟩
      have hy₂ : y ∉ (nodeOn .right c₂ r₂ g₂ l₂).toList := by
        rw [nodeOn_right, he₂]; exact hy
      rw [hf₄ y hy₂, hf₁₂ y hy]
    · obtain ⟨z, hz⟩ := Option.ne_none_iff_exists'.1 fun e => hr₂n ((rep_none_iff hr₂).1 e)
      simp only [hk, ne_eq, not_true_eq_false, if_false, hz, Option.bind_some]
      have hn₂' : (nodeOn .right c₂ r₂ g₂ l₂).toList.Nodup := hn₂
      obtain ⟨hnR, hnl, hhR, hhl, hRl⟩ := nodup_nodeOn.1 hn₂'
      have hszR : r₂.size < fuel := by
        have := size_child_lt_of_toList .right (node c l h r) he₂ (by simp)
        simp only [child_right, size_node] at this hsz ⊢
        omega
      have hz₂ : Rep H₂ (some z) r₂ := hz ▸ hr₂
      obtain ⟨H₃, p₃, e₃, hs₃, hm₃, hf₃⟩ := removeMin_sim fuel hszR hnR ⟨hz₂, hs₂.2.2.2⟩ hR
      rw [e₃]
      simp only [Option.bind_some]
      have hsubR := removeMin_sublist r₂ hR
      have hmr : rmin ∈ r₂.toList := hsubR.subset List.mem_cons_self
      have hrn : ∀ y ∈ rnew.toList, y ∈ r₂.toList := fun y hy =>
        hsubR.subset (List.mem_cons_of_mem rmin hy)
      have hgm : g₂ ≠ rmin := fun e => hhR (e ▸ hmr)
      have hp₃g : p₃ ≠ some g₂ := fun e => hhR (hrn g₂ (rep_some_mem (e ▸ hs₃.1)))
      have hp₃m : p₃ ≠ some rmin := fun e =>
        (List.nodup_cons.1 (hsubR.nodup hnR)).1 (rep_some_mem (e ▸ hs₃.1))
      have hl₂ : Rep H₂ (H₂ g₂).left l₂ := hs₂.1.2.2.1
      have hplg : (H₂ g₂).left ≠ some g₂ := fun e => hhl (rep_some_mem (e ▸ hl₂))
      have h3g : H₃ g₂ = H₂ g₂ := hf₃ g₂ hhR
      have hpar : (H₂ g₂).parent = q := hs₂.2.1
      have hcol : (H₂ g₂).color = c₂ := hs₂.1.2.1
      -- the reads of `parent(h)`, `get_color(h)` and `child(h, left)` see the record of the match
      simp only [Heap.setParentOf_of_ne _ _ hp₃g, Heap.setParentColor_ne _ _ _ hgm,
        Heap.setParentOf_of_ne _ _ hplg, Heap.setChild_ne _ _ _ hgm, h3g, hpar, hcol]
      -- the assertion that the minimum has no left child holds
      simp only [Heap.setParentColor_self, Heap.setParentOf_of_ne _ _ hp₃m, hm₃, not_true_eq_false,
        if_false]
      obtain ⟨hs₈, hf₈⟩ := graft_holds hn₂ hs₂ hsubR hs₃ hf₃
      have hgh : g₂ = h := replace_root key k ho hlt hr hm hk
      have hsub₈ : (node c₂ l₂ rmin rnew).toList.Sublist (node c₂ l₂ g₂ r₂).toList := by
        simpa using (List.Sublist.refl l₂.toList).append (hsubR.cons g₂)
      have hn₈ := hsub₈.nodup hn₂
      have hout : ∀ y ∉ (node c l h r).toList, y ∉ (node c₂ l₂ rmin rnew).toList := fun y hy e =>
        hy (he₂ ▸ hsub₈.subset e)
      cases q with
      | none =>
        obtain ⟨H', h', e', hs', hf'⟩ := fixUp_sim hn₈ hs₈ hf
        refine ⟨H', some h', by simp [e'], hs', framed_of_frame fun y hy => ?_⟩
        rw [hf' y (hout y hy), hf₈ y (by rwa [he₂]), hf₁₂ y hy]
      | some pp =>
        -- the write through `parent(h)` goes to the slot that held the match
        have hpp := hq pp rfl
        generalize hH₈ : ((((H₃.setParentOf p₃ (some rmin)).setParentColor rmin (some pp) c₂).setParentOf
          (H₂ g₂).left (some rmin)).setChild rmin .left (H₂ g₂).left).setChild rmin .right p₃ = H₈
          at hs₈ hf₈ ⊢
        have h8p : H₈ pp = H pp := by rw [hf₈ pp (by rwa [he₂]), hf₁₂ pp hpp]
        have hs₉ : Holds (H₈.setChild pp (if (H₈ pp).left = some g₂ then .left else .right) (some rmin))
            (some pp) (some rmin) (node c₂ l₂ rmin rnew) :=
          holds_frame hs₈ fun y hy => Heap.setChild_ne _ _ _ fun e => hout pp hpp (e ▸ hy)
        obtain ⟨H', h', e', hs', hf'⟩ := fixUp_sim hn₈ hs₉ hf
        refine ⟨H', some h', by simp [e'], hs', fun y hy => ?_⟩
        rw [hf' y (hout y hy)]
        rcases eq_or_ne y pp with rfl | hyp
        · exact .inr ⟨rfl, by simp, some rmin, by rw [Heap.setChild_self, h8p, hgh]⟩
        · exact .inl (by rw [Heap.setChild_ne _ _ _ hyp, hf₈ y (by rwa [he₂]), hf₁₂ y hy])

/-- `remove_internal(t, h, k, &result)` on the heap computes the tree function on every
    ordered tree of distinct nodes below the fuel. -/
theorem removeInternal_sim : ∀ fuel, RemoveSim key k fuel
  | 0 => fun hsz _ _ _ _ _ => absurd hsz (Nat.not_lt_zero _)
  | fuel + 1 => by
    intro hsz hn ho hq hs ht
    rename_i H q p t t' res
    cases t with
    | nil =>
      obtain rfl : p = none := hs.1
      simp only [RbtreeShape.removeInternal, Option.some.injEq, Prod.mk.injEq] at ht
      obtain ⟨rfl, rfl⟩ := ht
      exact ⟨H, none, rfl, hs, framed_of_frame fun _ _ => rfl⟩
    | node c l x r =>
      obtain rfl : p = some x := hs.1.1
      rcases removeInternal_node_cases key k ht with ⟨hlt, rfl, rfl, rfl⟩ |
        ⟨hlt, hl, t₁, L', hc, hL, hf⟩ | ⟨hlt, hgt, rfl, rfl, rfl⟩ | ⟨hlt, hgt, c₁, l₁, x₁, r₁, hr, hcase⟩
      · -- the search fails left of `x`
        have e : (H x).left = none := hs.1.2.2.1
        exact ⟨H, some x, by simp [Rbtree.removeInternal, hlt, e], hs, framed_of_frame fun _ _ => rfl⟩
      · obtain ⟨H', p', e, hs', hf'⟩ :=
          removeInternal_sim_lt key k (removeInternal_sim fuel) hsz hn ho hs hlt hl hc hL hf
        exact ⟨H', p', e, hs', framed_of_frame hf'⟩
      · -- the search fails right of `x`
        have e : (H x).right = none := hs.1.2.2.2
        exact ⟨H, some x, by simp [Rbtree.removeInternal, hgt, e], hs,
          framed_of_frame fun _ _ => rfl⟩
      · exact removeInternal_sim_ge key k (removeInternal_sim fuel) hsz hn ho hq hs hlt hgt hr hcase

omit [DecidableEq ν] in
theorem removeInternal_ne_nil {t t' : CTree ν} (ht : RbtreeShape.removeInternal key k t = some (t', true)) :
    t ≠ nil := by
  rintro rfl
  simp [RbtreeShape.removeInternal] at ht

/-- `rbtree_remove_by_key(t, k)` on the heap computes the tree function: the count
    assertion holds, and the count drops by one exactly when a node was removed. -/
theorem rbtreeRemoveByKey_sim {H : Heap ν} {T : Rbtree.Rbtree ν} {t t' : CTree ν} {res : Bool}
    (hn : t.toList.Nodup) (ho : Ordered key t) (hs : Holds H none T.root t) (hc : T.count = t.size)
    (ht : RbtreeShape.rbtreeRemoveByKey key t k = some (t', res)) :
    ∃ H' T', Rbtree.rbtreeRemoveByKey key H T k = some (H', T', res) ∧ Holds H' none T'.root t' ∧
      T'.count = (if res then T.count - 1 else T.count) ∧ ∀ y ∉ t.toList, H' y = H y := by
  obtain ⟨⟨t₁, res₁⟩, h₁, h₂⟩ := Option.bind_eq_some_iff.1 ht
  simp only [Option.pure_def, Option.some.injEq, Prod.mk.injEq] at h₂
  obtain ⟨rfl, rfl⟩ := h₂
  obtain ⟨H₁, p₁, e₁, hs₁, hf₁⟩ :=
    removeInternal_sim key k (T.count + 1) (by omega) hn ho (fun y e => by cases e) hs h₁
  have hsub := removeInternal_sublist key k t h₁
  -- a removal that succeeded leaves a count that was positive
  have hpos : ¬(res₁ = true ∧ T.count = 0) := by
    rintro ⟨rfl, h0⟩
    have := removeInternal_ne_nil key k h₁
    rw [hc] at h0
    exact this (by cases t <;> simp_all)
  have hf₁' : ∀ y ∉ t.toList, H₁ y = H y := fun y hy => by
    rcases hf₁ y hy with e | ⟨e, -⟩
    · exact e
    · cases e
  simp only [Rbtree.rbtreeRemoveByKey, e₁, Option.bind_eq_bind, Option.bind_some, if_neg hpos]
  cases p₁ with
  | none =>
    obtain rfl : t₁ = nil := (rep_none_iff hs₁.1).1 rfl
    exact ⟨H₁, _, rfl, hs₁, rfl, hf₁'⟩
  | some x =>
    obtain ⟨hs₂, hf₂⟩ := holds_blacken (hsub.nodup hn) hs₁
    refine ⟨H₁.setColor x .black, _, rfl, hs₂, rfl, fun y hy => ?_⟩
    rw [hf₂ y fun e => hy (hsub.subset e), hf₁' y hy]

end removeInternal

end Nanos.RbtreeRemoveRefinement
