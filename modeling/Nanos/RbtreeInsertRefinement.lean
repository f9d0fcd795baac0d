import Nanos.RbtreeRefinement
import Nanos.RbtreeInsert

set_option autoImplicit false

/-!
# Insertion on the heap

`insert_node_internal` and `rbtree_insert_node` on the heap compute the functions of
`Nanos.RbtreeShape`, for a new node prepared by `init_rbnode`. The in-order list
of the tree gains `n` exactly when the insertion reports success.
-/

namespace Nanos.RbtreeInsertRefinement
open ColorTree NodeHeap CTree RbtreeRefinement
open RbtreeShape (fixUp_toList)
open Rbtree (compareNodes)

variable {ν : Type} [DecidableEq ν]

section
variable {κ : Type} [LinearOrder κ] (key : ν → κ) (n : ν)

omit [DecidableEq ν] in
theorem insertNodeInternal_node_cases {c : Color} {l r t' : CTree ν} {x : ν} {res : Bool}
    (h : RbtreeShape.insertNodeInternal key n (node c l x r) = some (t', res)) :
    (compareNodes key n x = .eq ∧ res = false ∧ RbtreeShape.fixUp (node c l x r) = some t') ∨
    ∃ hand near far s', compareNodes key n x ≠ .eq ∧
      (if compareNodes key n x = .lt then Hand.left else .right) = hand ∧
      node c l x r = nodeOn hand c near x far ∧
      ((near = nil ∧ s' = node .red nil n nil ∧ res = true) ∨
        (near ≠ nil ∧ RbtreeShape.insertNodeInternal key n near = some (s', res))) ∧
      RbtreeShape.fixUp (nodeOn hand c s' x far) = some t' := by
  rw [RbtreeShape.insertNodeInternal] at h
  cases hcmp : compareNodes key n x with
  | eq =>
    simp only [hcmp, reduceCtorEq, if_false, Option.pure_def, Option.bind_eq_bind, Option.bind_some,
      Option.bind_eq_some_iff, Option.some.injEq, Prod.mk.injEq] at h
    obtain ⟨t'', hf, rfl, rfl⟩ := h
    exact .inl ⟨rfl, rfl, hf⟩
  | lt =>
    simp only [hcmp, reduceCtorEq, if_true] at h
    obtain ⟨⟨t₁, res₁⟩, h₁, h₂⟩ := Option.bind_eq_some_iff.1 h
    obtain ⟨t₂, h₃, h₄⟩ := Option.bind_eq_some_iff.1 h₂
    simp only [Option.pure_def, Option.some.injEq, Prod.mk.injEq] at h₄
    obtain ⟨rfl, rfl⟩ := h₄
    cases hl : l.isNil with
    | true =>
      simp only [hl, if_true, Option.pure_def, Option.some.injEq, Prod.mk.injEq] at h₁
      obtain ⟨rfl, rfl⟩ := h₁
      exact .inr ⟨.left, l, r, _, by simp, rfl, rfl, .inl ⟨(isNil_iff l).1 hl, rfl, rfl⟩, h₃⟩
    | false =>
      simp only [hl, Bool.false_eq_true, if_false] at h₁
      obtain ⟨⟨l', res'⟩, hL, he⟩ := Option.map_eq_some_iff.1 h₁
      simp only [Prod.mk.injEq] at he
      obtain ⟨rfl, rfl⟩ := he
      exact .inr ⟨.left, l, r, l', by simp, rfl, rfl,
        .inr ⟨fun e => by simp [e] at hl, hL⟩, h₃⟩
  | gt =>
    simp only [hcmp, reduceCtorEq, if_true, if_false] at h
    obtain ⟨⟨t₁, res₁⟩, h₁, h₂⟩ := Option.bind_eq_some_iff.1 h
    obtain ⟨t₂, h₃, h₄⟩ := Option.bind_eq_some_iff.1 h₂
    simp only [Option.pure_def, Option.some.injEq, Prod.mk.injEq] at h₄
    obtain ⟨rfl, rfl⟩ := h₄
    cases hr : r.isNil with
    | true =>
      simp only [hr, if_true, Option.pure_def, Option.some.injEq, Prod.mk.injEq] at h₁
      obtain ⟨rfl, rfl⟩ := h₁
      exact .inr ⟨.right, r, l, _, by simp, rfl, rfl, .inl ⟨(isNil_iff r).1 hr, rfl, rfl⟩, h₃⟩
    | false =>
      simp only [hr, Bool.false_eq_true, if_false] at h₁
      obtain ⟨⟨r', res'⟩, hR, he⟩ := Option.map_eq_some_iff.1 h₁
      simp only [Prod.mk.injEq] at he
      obtain ⟨rfl, rfl⟩ := he
      exact .inr ⟨.right, r, l, r', by simp, rfl, rfl,
        .inr ⟨fun e => by simp [e] at hr, hR⟩, h₃⟩

omit [DecidableEq ν] in
theorem insertNodeInternal_perm (t : CTree ν) :
    ∀ {t' res}, RbtreeShape.insertNodeInternal key n t = some (t', res) →
      t'.toList.Perm (if res then n :: t.toList else t.toList) := by
  induction t with
  | nil => intro t' res h; simp [RbtreeShape.insertNodeInternal] at h
  | node c l x r ihl ihr =>
    intro t' res h
    rcases insertNodeInternal_node_cases key n h with ⟨-, rfl, hf⟩ |
      ⟨hand, near, far, s', -, -, ht, hs, hf⟩
    · rw [fixUp_toList hf]
      simp
    · -- the new child holds the nodes of the old one, and `n` when it was inserted
      have hchild : ∀ {u : CTree ν}, (∀ {t' res}, RbtreeShape.insertNodeInternal key n u = some (t', res) →
          t'.toList.Perm (if res then n :: u.toList else u.toList)) → near = u →
          s'.toList.Perm (if res then n :: near.toList else near.toList) := by
        rintro u ih rfl
        rcases hs with ⟨rfl, rfl, rfl⟩ | ⟨-, hs⟩
        · simp
        · exact ih hs
      have hp : s'.toList.Perm (if res then n :: near.toList else near.toList) := by
        cases hand with
        | left => exact hchild ihl (by simp only [nodeOn_left, node.injEq] at ht; exact ht.2.1.symm)
        | right => exact hchild ihr (by simp only [nodeOn_right, node.injEq] at ht; exact ht.2.2.2.symm)
      rw [fixUp_toList hf, ht]
      cases res
      · exact perm_nodeOn hp
      · exact perm_nodeOn_cons hp

/-- The node to insert, after `init_rbnode(n)` and `set_color(n, red)`: a red node
    with no children. -/
def RedLeaf (H : Heap ν) : Prop := (H n).color = .red ∧ (H n).left = none ∧ (H n).right = none

/-- `child(h, hand) = n; set_parent(n, h)` at a null child, and the fix-up after it. -/
theorem insert_leaf_sim {H : Heap ν} {q : Option ν} {h : ν} {hand : Hand} {c : Color}
    {far t' : CTree ν} (hn : (nodeOn hand c nil h far).toList.Nodup)
    (hnt : n ∉ (nodeOn hand c nil h far).toList) (hleaf : RedLeaf n H)
    (hs : Holds H q (some h) (nodeOn hand c nil h far))
    (hf : RbtreeShape.fixUp (nodeOn hand c (node .red nil n nil) h far) = some t') :
    ∃ H' h', Rbtree.fixUp ((H.setChild h hand (some n)).setParent n (some h)) h = some (H', h') ∧
      Holds H' q (some h') t' ∧ ∀ y ∉ (nodeOn hand c nil h far).toList, y ∉ t'.toList → H' y = H y := by
  have hhn : h ≠ n := fun e => hnt (mem_nodeOn.2 (.inr (.inl e.symm)))
  have hnf : n ∉ far.toList := fun e => hnt (mem_nodeOn.2 (.inr (.inr e)))
  obtain ⟨-, hnf', -, hhf, -⟩ := nodup_nodeOn.1 hn
  have hns : (nodeOn hand c (node .red nil n nil) h far).toList.Nodup :=
    nodup_nodeOn.2 ⟨by simp, hnf', by simpa using hhn, hhf, by simpa using hnf⟩
  have hc : Holds (H.setParent n (some h)) (some h) (some n) (node .red nil n nil) :=
    ⟨⟨rfl, by simp [hleaf.1], by simp [hleaf.2.1], by simp [hleaf.2.2]⟩, by simp, trivial, trivial⟩
  have hkeep : H.setParent n (some h) h = H h := Heap.setParent_ne _ _ hhn
  rw [Heap.setChild_setParent_comm _ _ _ _ hhn]
  obtain ⟨H', h', e, hs', hf'⟩ := descend_sim hn hns hs hc
    (fun y _ _ hy => Heap.setParent_ne _ _ fun e => hy (by simp [e]))
    ⟨by rw [hkeep], by rw [hkeep], by rw [hkeep]⟩ hf
  refine ⟨H', h', e, hs', fun y hy hyt => hf' y hy fun e => hyt ?_⟩
  rw [fixUp_toList hf]
  exact mem_nodeOn.2 (.inl e)

theorem insert_child_sim {H H₁ : Heap ν} {q : Option ν} {h p₁ : ν} {hand : Hand} {c : Color}
    {near far s' t' : CTree ν} {res : Bool} (hn : (nodeOn hand c near h far).toList.Nodup)
    (hnt : n ∉ (nodeOn hand c near h far).toList)
    (hs : Holds H q (some h) (nodeOn hand c near h far)) (hc : Holds H₁ (some h) (some p₁) s')
    (hp : s'.toList.Perm (if res then n :: near.toList else near.toList))
    (hfr : ∀ y ∉ near.toList, y ∉ s'.toList → H₁ y = H y)
    (hf : RbtreeShape.fixUp (nodeOn hand c s' h far) = some t') :
    ∃ H' h', Rbtree.fixUp (H₁.setChild h hand (some p₁)) h = some (H', h') ∧
      Holds H' q (some h') t' ∧ ∀ y ∉ (nodeOn hand c near h far).toList, y ∉ t'.toList → H' y = H y := by
  have hhn : h ≠ n := fun e => hnt (mem_nodeOn.2 (.inr (.inl e.symm)))
  -- the nodes below `h` now are those before, with `n` when it was inserted
  have hp' : (nodeOn hand c s' h far).toList.Perm
      (if res then n :: (nodeOn hand c near h far).toList else (nodeOn hand c near h far).toList) := by
    cases res
    · exact perm_nodeOn hp
    · exact perm_nodeOn_cons hp
  have hns : (nodeOn hand c s' h far).toList.Nodup := by
    refine hp'.nodup_iff.2 ?_
    cases res
    · exact hn
    · exact List.nodup_cons.2 ⟨hnt, hn⟩
  obtain ⟨-, -, hhs, -, -⟩ := nodup_nodeOn.1 hns
  have hhnear : h ∉ near.toList := (nodup_nodeOn.1 hn).2.2.1
  have hkeep := hfr h hhnear hhs
  obtain ⟨H', h', e, hs', hf'⟩ := descend_sim hn hns hs hc (fun y hy _ hys => hfr y hy hys)
    ⟨by rw [hkeep], by rw [hkeep], by rw [hkeep]⟩ hf
  refine ⟨H', h', e, hs', fun y hy hyt => hf' y hy fun e => hyt ?_⟩
  rw [fixUp_toList hf]
  exact mem_nodeOn.2 (.inl e)

/-- `insert_node_internal` on the heap, with `fuel` for the depth, computes the tree
    function on every tree of distinct nodes that `n` is not part of. -/
def InsertSim (fuel : ℕ) : Prop :=
  ∀ {H : Heap ν} {q : Option ν} {h : ν} {t t' : CTree ν} {res : Bool}, t.size < fuel →
    t.toList.Nodup → n ∉ t.toList → RedLeaf n H → Holds H q (some h) t →
    RbtreeShape.insertNodeInternal key n t = some (t', res) →
    ∃ H' h', Rbtree.insertNodeInternal key fuel H h n = some (H', h', res) ∧ Holds H' q (some h') t' ∧
      ∀ y ∉ t.toList, y ∉ t'.toList → H' y = H y

/-- `insert_node_internal(t, h, n, &result)` on the heap computes the tree function. -/
theorem insertNodeInternal_sim : ∀ fuel, InsertSim key n fuel
  | 0 => fun hsz _ _ _ _ _ => absurd hsz (Nat.not_lt_zero _)
  | fuel + 1 => by
    intro hsz hn hnt hleaf hs ht
    rename_i H q h t t' res
    cases t with
    | nil => simp [RbtreeShape.insertNodeInternal] at ht
    | node c l x r =>
      have hx : h = x := Option.some.inj hs.1.1
      subst x
      rcases insertNodeInternal_node_cases key n ht with ⟨heq, rfl, hf⟩ |
        ⟨hand, near, far, s', hne, hhand, ht', hcase, hf⟩
      · -- the key is there already: only the fix-up runs
        obtain ⟨H', h', e, hs', hf'⟩ := fixUp_sim hn hs hf
        exact ⟨H', h', by simp [Rbtree.insertNodeInternal, heq, e], hs', fun y hy _ => hf' y hy⟩
      · rw [ht'] at hn hnt hs hsz ⊢
        simp only [Rbtree.compareNodes_lt_iff] at hhand
        have hnear : Rep H ((H h).child hand) near := (rep_nodeOn.1 hs.1).2.2.1
        rcases hcase with ⟨rfl, rfl, rfl⟩ | ⟨hne', hins⟩
        · -- a null child: `n` becomes the new leaf
          have hch : (H h).child hand = none := hnear
          obtain ⟨H', h', e, hs', hf'⟩ := insert_leaf_sim n hn hnt hleaf hs hf
          refine ⟨H', h', ?_, hs', hf'⟩
          simp [Rbtree.insertNodeInternal, hne, hhand, hch, e]
        · obtain ⟨z, hz⟩ := Option.ne_none_iff_exists'.1 fun e => hne' ((rep_none_iff hnear).1 e)
          obtain ⟨hnn, -, hhn, -, -⟩ := nodup_nodeOn.1 hn
          have hszn : near.size < fuel := by
            have := congrArg List.length (congrArg CTree.toList ht'.symm)
            cases hand <;> simp_all [size] <;> omega
          obtain ⟨H₁, p₁, e₁, hs₁, hf₁⟩ := insertNodeInternal_sim fuel hszn hnn
            (fun e => hnt (mem_nodeOn.2 (.inl e))) hleaf ⟨hz ▸ hnear, (links_nodeOn.1 hs.2).2.1⟩ hins
          obtain ⟨H', h', e, hs', hf'⟩ := insert_child_sim n hn hnt hs hs₁
            (insertNodeInternal_perm key n near hins) (fun y hy hys => hf₁ y hy hys) hf
          refine ⟨H', h', ?_, hs', hf'⟩
          simp [Rbtree.insertNodeInternal, hne, hhand, hz, e₁, e]

end

section
variable {κ : Type} [LinearOrder κ] (key : ν → κ) (n : ν)

/-- `rbtree_insert_node(t, n)` on the heap computes the tree function, for a node `n`
    set up by `init_rbnode` and not in the tree. Besides the tree it writes only the
    color of `n`, even when the key was there already. -/
theorem rbtreeInsertNode_sim {H : Heap ν} {T : Rbtree.Rbtree ν} {t t' : CTree ν} {res : Bool}
    (hn : t.toList.Nodup) (hnt : n ∉ t.toList)
    (hinit : (H n).parent = none ∧ (H n).left = none ∧ (H n).right = none)
    (hs : Holds H none T.root t) (hc : T.count = t.size)
    (ht : RbtreeShape.rbtreeInsertNode key t n = some (t', res)) :
    ∃ H' T', Rbtree.rbtreeInsertNode key H T n = some (H', T', res) ∧ Holds H' none T'.root t' ∧
      T'.count = (if res then T.count + 1 else T.count) ∧
      ∀ y ∉ t.toList, y ∉ t'.toList → y ≠ n → H' y = H y := by
  obtain ⟨⟨t₁, res₁⟩, h₁, h₂⟩ := Option.bind_eq_some_iff.1 ht
  simp only [Option.pure_def, Option.some.injEq, Prod.mk.injEq] at h₂
  obtain ⟨rfl, rfl⟩ := h₂
  cases t with
  | nil =>
    -- the empty tree: `n` becomes the root
    have hroot : T.root = none := hs.1
    simp only [Option.pure_def, Option.some.injEq, Prod.mk.injEq] at h₁
    obtain ⟨rfl, rfl⟩ := h₁
    refine ⟨H.setColor n .black, ⟨some n, T.count + 1⟩, by simp [Rbtree.rbtreeInsertNode, hroot],
      ⟨⟨rfl, by simp, by simp [hinit.2.1], by simp [hinit.2.2]⟩, by simp [hinit.1], trivial, trivial⟩,
      by simp, fun y _ _ hyn => Heap.setColor_ne _ _ hyn⟩
  | node c l x r =>
    have hroot : T.root = some x := hs.1.1
    simp only at h₁
    -- `set_color(n, red)` writes outside the tree
    have hkeep : ∀ y ∈ (node c l x r).toList, H.setColor n .red y = H y := fun y hy =>
      Heap.setColor_ne _ _ fun e => hnt (e ▸ hy)
    have hleaf : RedLeaf n (H.setColor n .red) := ⟨by simp, by simp [hinit.2.1], by simp [hinit.2.2]⟩
    obtain ⟨H₁, x₁, e₁, hs₁, hf₁⟩ := insertNodeInternal_sim key n (T.count + 1) (by omega) hn hnt
      hleaf (hroot ▸ holds_frame hs hkeep) h₁
    have hp := insertNodeInternal_perm key n _ h₁
    have hn₁ : t₁.toList.Nodup := by
      refine hp.nodup_iff.2 ?_
      cases res₁
      · exact hn
      · exact List.nodup_cons.2 ⟨hnt, hn⟩
    obtain ⟨hs₂, hf₂⟩ := holds_blacken hn₁ hs₁
    refine ⟨H₁.setColor x₁ .black, ⟨some x₁, if res₁ then T.count + 1 else T.count⟩,
      by simp [Rbtree.rbtreeInsertNode, hroot, e₁], hs₂, rfl, fun y hy hyt hyn => ?_⟩
    simp only [toList_blacken] at hyt
    rw [hf₂ y hyt, hf₁ y hy hyt, Heap.setColor_ne _ _ hyn]

end
end Nanos.RbtreeInsertRefinement
