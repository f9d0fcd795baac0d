import Nanos.RbtreeShape

set_option autoImplicit false

/-!
# The heap functions compute the tree functions

Each function of `Nanos.Rbtree` is shown to compute, on a heap holding a tree,
the heap holding the tree that the function of `Nanos.RbtreeShape` computes,
writing no node outside that tree. The heap `H` holds `t` at `p` below `q` when
the child links spell `t` and the parent links go back up to `q`; the nodes of
`t` are distinct.
-/

namespace Nanos.RbtreeRefinement
open ColorTree NodeHeap CTree
open RbtreeShape (colorFlip_toList rotate_toList checkMoveRed_toList fixUp_toList
  setChild_toList_of_child)

variable {ν : Type} [DecidableEq ν]

/-- `H` holds `t` at `p`, as a subtree whose root links back to `q`. -/
def Holds (H : Heap ν) (q p : Option ν) (t : CTree ν) : Prop := Rep H p t ∧ Links H q t

/-! ## `rotate` -/

/-- `rotate(hand, h)` writes three records: `h`, the child `x` that takes its place,
    and the grandchild that moves from `x` to `h`. -/
theorem rotate_spec {H : Heap ν} {hand : Hand} {h x : ν} (hx : (H h).child hand.other = some x)
    (hhx : h ≠ x) (hxh : (H x).child hand ≠ some h) (hxx : (H x).child hand ≠ some x) :
    ∃ H', Rbtree.rotate H hand h = some (H', x) ∧
      H' h = { (H h).setChild hand.other ((H x).child hand) with parent := some x, color := .red } ∧
      H' x = { (H x).setChild hand (some h) with parent := (H h).parent, color := (H h).color } ∧
      (∀ y, (H x).child hand = some y → H' y = { H y with parent := some h }) ∧
      (∀ z, z ≠ h → z ≠ x → (H x).child hand ≠ some z → H' z = H z) := by
  simp only [Rbtree.rotate, hx, Option.pure_def, Option.bind_eq_bind, Option.bind_some]
  refine ⟨_, rfl, ?_, ?_, ?_, ?_⟩
  · rcases hxc : (H x).child hand with _ | y
    · simp [hhx]
    · have hyh : h ≠ y := fun e => hxh (e ▸ hxc)
      simp [hhx, hyh]
  · rcases hxc : (H x).child hand with _ | y
    · simp [hhx, Ne.symm hhx]
    · have hyx : x ≠ y := fun e => hxx (e ▸ hxc)
      have hyh : h ≠ y := fun e => hxh (e ▸ hxc)
      simp [hhx, Ne.symm hhx, hyx, hyh]
  · intro y hy
    have hyh : y ≠ h := fun e => hxh (e ▸ hy)
    have hyx : y ≠ x := fun e => hxx (e ▸ hy)
    simp [hy, hyh, hyx]
  · intro z hzh hzx hzc
    rcases hxc : (H x).child hand with _ | y
    · simp [hzh, hzx]
    · have hzy : z ≠ y := fun e => hzc (e ▸ hxc)
      simp [hzh, hzx, hzy]

/-- `rotate(hand, h)` on the heap computes the rotation of the tree it holds. -/
theorem rotate_sim {H : Heap ν} {q : Option ν} {hand : Hand} {c c' : Color} {a b d : CTree ν}
    {h x : ν} (hn : (nodeOn hand c a h (nodeOn hand c' b x d)).toList.Nodup)
    (hs : Holds H q (some h) (nodeOn hand c a h (nodeOn hand c' b x d))) :
    ∃ H', Rbtree.rotate H hand h = some (H', x) ∧
      Holds H' q (some x) (nodeOn hand c (nodeOn hand .red a h b) x d) ∧
      ∀ y ∉ (nodeOn hand c a h (nodeOn hand c' b x d)).toList, H' y = H y := by
  obtain ⟨hr, hl⟩ := hs
  obtain ⟨-, hhc, ha, hr'⟩ := rep_nodeOn.1 hr
  obtain ⟨hhr, hxc, hb, hd⟩ := rep_nodeOn.1 hr'
  obtain ⟨hhp, hla, hl'⟩ := links_nodeOn.1 hl
  obtain ⟨hxp, hlb, hld⟩ := links_nodeOn.1 hl'
  obtain ⟨-, hnr, hha, hhxr, hdis⟩ := nodup_nodeOn.1 hn
  obtain ⟨hnb, -, hxb, hxd, hbd⟩ := nodup_nodeOn.1 hnr
  have hhx : h ≠ x := fun e => hhxr (mem_nodeOn.2 (.inr (.inl e)))
  have hhb : h ∉ b.toList := fun e => hhxr (mem_nodeOn.2 (.inl e))
  have hhd : h ∉ d.toList := fun e => hhxr (mem_nodeOn.2 (.inr (.inr e)))
  have hxa : x ∉ a.toList := fun e => hdis x e (mem_nodeOn.2 (.inr (.inl rfl)))
  have hab : ∀ z ∈ a.toList, z ∉ b.toList := fun z hz e => hdis z hz (mem_nodeOn.2 (.inl e))
  have had : ∀ z ∈ a.toList, z ∉ d.toList := fun z hz e => hdis z hz (mem_nodeOn.2 (.inr (.inr e)))
  -- the grandchild that changes sides is the root of `b`
  have hgb : ∀ z, (H x).child hand = some z → z ∈ b.toList := fun z e => rep_some_mem (e ▸ hb)
  obtain ⟨H', hrot, hH'h, hH'x, hH'y, hH'z⟩ :=
    rotate_spec hhr hhx (fun e => hhb (hgb h e)) (fun e => hxb (hgb x e))
  have hfa : ∀ z ∈ a.toList, H' z = H z := fun z hz =>
    hH'z z (fun e => hha (e ▸ hz)) (fun e => hxa (e ▸ hz)) fun e => hab z hz (hgb z e)
  have hfd : ∀ z ∈ d.toList, H' z = H z := fun z hz =>
    hH'z z (fun e => hhd (e ▸ hz)) (fun e => hxd (e ▸ hz)) fun e => hbd z (hgb z e) hz
  -- inside `b` only the parent link of the root changes
  have hfb : ∀ z ∈ b.toList, (H x).child hand ≠ some z → H' z = H z := fun z hz hzr =>
    hH'z z (fun e => hhb (e ▸ hz)) (fun e => hxb (e ▸ hz)) hzr
  have hfb' : ∀ z ∈ b.toList, (H' z).color = (H z).color ∧ (H' z).left = (H z).left ∧
      (H' z).right = (H z).right := by
    intro z hz
    by_cases hzr : (H x).child hand = some z
    · simp [hH'y z hzr]
    · simp [hfb z hz hzr]
  have hrh : Rep H' ((H' x).child hand) (nodeOn hand .red a h b) := by
    refine rep_nodeOn.2 ⟨by simp [hH'x], by simp [hH'h], ?_, ?_⟩
    · simpa [hH'h] using rep_frame_outside ha hfa
    · simpa [hH'h] using rep_frame hb hfb'
  have hlb' : Links H' (some h) b := by
    cases b with
    | nil => trivial
    | node cb bl y br =>
      obtain ⟨hy, -⟩ := hb
      obtain ⟨-, hlbl, hlbr⟩ := hlb
      obtain ⟨-, -, hybl, hybr, -⟩ :=
        nodup_node.1 hnb
      refine ⟨by simp [hH'y y hy], links_frame_outside hlbl fun z hz => hfb z (by simp [hz]) ?_,
        links_frame_outside hlbr fun z hz => hfb z (by simp [hz]) ?_⟩
      · rw [hy]; exact fun e => hybl (Option.some.inj e ▸ hz)
      · rw [hy]; exact fun e => hybr (Option.some.inj e ▸ hz)
  refine ⟨H', hrot, ⟨rep_nodeOn.2 ⟨rfl, by simp [hH'x, hhc], hrh, ?_⟩, links_nodeOn.2 ⟨?_, ?_, ?_⟩⟩, ?_⟩
  · simpa [hH'x] using rep_frame_outside hd hfd
  · simp [hH'x, hhp]
  · exact links_nodeOn.2 ⟨by simp [hH'h], links_frame_outside hla hfa, hlb'⟩
  · exact links_frame_outside hld hfd
  · intro z hz
    exact hH'z z (fun e => hz (mem_nodeOn.2 (.inr (.inl e))))
      (fun e => hz (mem_nodeOn.2 (.inr (.inr (mem_nodeOn.2 (.inr (.inl e)))))))
      fun e => hz (mem_nodeOn.2 (.inr (.inr (mem_nodeOn.2 (.inl (hgb z e))))))

omit [DecidableEq ν] in
theorem rotate_eq_some {hand : Hand} {t t' : CTree ν} (h : RbtreeShape.rotate hand t = some t') :
    ∃ c c' a b d x y, t = nodeOn hand c a x (nodeOn hand c' b y d) ∧
      t' = nodeOn hand c (nodeOn hand .red a x b) y d := by
  unfold RbtreeShape.rotate at h
  split at h
  · cases h; exact ⟨_, _, _, _, _, _, _, rfl, rfl⟩
  · cases h; exact ⟨_, _, _, _, _, _, _, rfl, rfl⟩
  · cases h

theorem rotate_sim' {H : Heap ν} {q : Option ν} {hand : Hand} {h : ν} {t t' : CTree ν}
    (hn : t.toList.Nodup) (hs : Holds H q (some h) t) (ht : RbtreeShape.rotate hand t = some t') :
    ∃ H' x, Rbtree.rotate H hand h = some (H', x) ∧ Holds H' q (some x) t' ∧
      ∀ y ∉ t.toList, H' y = H y := by
  obtain ⟨c, c', a, b, d, x, y, rfl, rfl⟩ := rotate_eq_some ht
  obtain rfl : h = x := Option.some.inj (rep_nodeOn.1 hs.1).1
  obtain ⟨H', h₁, h₂, h₃⟩ := rotate_sim hn hs
  exact ⟨H', y, h₁, h₂, h₃⟩

/-! ## `color_flip` -/

theorem colorFlip_spec {H : Heap ν} {n l r : ν} (hl : (H n).left = some l) (hr : (H n).right = some r)
    (hnl : n ≠ l) (hnr : n ≠ r) (hlr : l ≠ r) :
    ∃ H', Rbtree.colorFlip H n = some H' ∧ H' n = { H n with color := (H n).color.flip } ∧
      H' l = { H l with color := (H l).color.flip } ∧ H' r = { H r with color := (H r).color.flip } ∧
      ∀ z, z ≠ n → z ≠ l → z ≠ r → H' z = H z := by
  have e₁ : (H.setColor n (H n).color.flip n).left = some l := by simp [hl]
  have e₂ : ((H.setColor n (H n).color.flip).setColor l
      (H.setColor n (H n).color.flip l).color.flip n).right = some r := by
    simp [hnl, hr]
  simp only [Rbtree.colorFlip, e₁, e₂, Option.pure_def, Option.bind_eq_bind, Option.bind_some]
  refine ⟨_, rfl, ?_, ?_, ?_, ?_⟩
  · simp [hnl, hnr]
  · simp [hnl.symm, hlr]
  · simp [hnr.symm, hlr.symm]
  · intro z hzn hzl hzr
    simp [hzn, hzl, hzr]

omit [DecidableEq ν] in
theorem colorFlip_eq_some {t t' : CTree ν} (h : RbtreeShape.colorFlip t = some t') :
    ∃ c cl a x b cr d y e z, t = node c (node cl a x b) z (node cr d y e) ∧
      t' = node c.flip (node cl.flip a x b) z (node cr.flip d y e) := by
  unfold RbtreeShape.colorFlip at h
  split at h
  · cases h; exact ⟨_, _, _, _, _, _, _, _, _, _, rfl, rfl⟩
  · cases h

/-- `color_flip(h)` on the heap computes the color flip of the tree it holds. -/
theorem colorFlip_sim {H : Heap ν} {q : Option ν} {h : ν} {t t' : CTree ν} (hn : t.toList.Nodup)
    (hs : Holds H q (some h) t) (ht : RbtreeShape.colorFlip t = some t') :
    ∃ H', Rbtree.colorFlip H h = some H' ∧ Holds H' q (some h) t' ∧ ∀ y ∉ t.toList, H' y = H y := by
  obtain ⟨c, cl, a, x, b, cr, d, y, e, z, rfl, rfl⟩ := colorFlip_eq_some ht
  obtain ⟨⟨hh, hhc, ⟨hx, hxc, ha, hb⟩, ⟨hy, hyc, hd, he⟩⟩, hhp, ⟨hxp, hla, hlb⟩, ⟨hyp, hld, hle⟩⟩ := hs
  obtain rfl := Option.some.inj hh
  obtain ⟨hnl, hnr, hhl, hhr, hdis⟩ := nodup_node.1 hn
  obtain ⟨-, -, hxa, hxb, -⟩ := nodup_node.1 hnl
  obtain ⟨-, -, hyd, hye, -⟩ := nodup_node.1 hnr
  have hhx : h ≠ x := fun e' => hhl (by simp [e'])
  have hhy : h ≠ y := fun e' => hhr (by simp [e'])
  have hxy : x ≠ y := fun e' => hdis x (by simp) (by simp [e'])
  obtain ⟨H', hf, hH'h, hH'x, hH'y, hH'z⟩ := colorFlip_spec hx hy hhx hhy hxy
  -- the records below the three flipped nodes are untouched
  have hfl : ∀ w ∈ a.toList ++ b.toList, H' w = H w := by
    intro w hw
    have hwl : w ∈ (node cl a x b).toList := by simp at hw ⊢; tauto
    refine hH'z w (fun e' => hhl (e' ▸ hwl)) (fun e' => ?_) (fun e' => hdis w hwl (by simp [e']))
    subst e'
    simp only [List.mem_append] at hw
    tauto
  have hfr : ∀ w ∈ d.toList ++ e.toList, H' w = H w := by
    intro w hw
    have hwr : w ∈ (node cr d y e).toList := by simp at hw ⊢; tauto
    refine hH'z w (fun e' => hhr (e' ▸ hwr)) (fun e' => hdis x (by simp) (e' ▸ hwr)) (fun e' => ?_)
    subst e'
    simp only [List.mem_append] at hw
    tauto
  have hfa : ∀ w ∈ a.toList, H' w = H w := fun w hw => hfl w (List.mem_append_left _ hw)
  have hfb : ∀ w ∈ b.toList, H' w = H w := fun w hw => hfl w (List.mem_append_right _ hw)
  have hfd : ∀ w ∈ d.toList, H' w = H w := fun w hw => hfr w (List.mem_append_left _ hw)
  have hfe : ∀ w ∈ e.toList, H' w = H w := fun w hw => hfr w (List.mem_append_right _ hw)
  refine ⟨H', hf, ⟨⟨rfl, by simp [hH'h, hhc], ⟨by simp [hH'h, hx], by simp [hH'x, hxc], ?_, ?_⟩,
    ⟨by simp [hH'h, hy], by simp [hH'y, hyc], ?_, ?_⟩⟩, ⟨by simp [hH'h, hhp], ⟨by simp [hH'x, hxp],
    links_frame_outside hla hfa, links_frame_outside hlb hfb⟩, ⟨by simp [hH'y, hyp],
    links_frame_outside hld hfd, links_frame_outside hle hfe⟩⟩⟩, ?_⟩
  · simpa [hH'x] using rep_frame_outside ha hfa
  · simpa [hH'x] using rep_frame_outside hb hfb
  · simpa [hH'y] using rep_frame_outside hd hfd
  · simpa [hH'y] using rep_frame_outside he hfe
  · intro w hw
    exact hH'z w (fun e' => hw (by simp [e'])) (fun e' => hw (by simp [e'])) (fun e' => hw (by simp [e']))

/-! ## What the tests of the heap functions read -/

omit [DecidableEq ν] in
theorem isRed_of_rep {H : Heap ν} {p : Option ν} {t : CTree ν} (h : Rep H p t) :
    Rbtree.isRed H p = t.isRed := by
  cases t with
  | nil => rw [h]; rfl
  | node c l x r =>
    obtain ⟨rfl, hc, -⟩ := h
    simp [Rbtree.isRed, hc]

omit [DecidableEq ν] in
theorem rep_leftOf {H : Heap ν} {p : Option ν} {t : CTree ν} (h : Rep H p t) :
    Rep H (Rbtree.leftOf H p) (t.child .left) := by
  cases t with
  | nil => rw [h]; rfl
  | node c l x r =>
    obtain ⟨rfl, -, hl, -⟩ := h
    exact hl

omit [DecidableEq ν] in
theorem isNone_of_rep {H : Heap ν} {p : Option ν} {t : CTree ν} (h : Rep H p t) :
    p.isNone = t.isNil := by
  cases t with
  | nil => rw [h]; rfl
  | node c l x r =>
    obtain ⟨rfl, -⟩ := h
    rfl

omit [DecidableEq ν] in
theorem rep_child {H : Heap ν} {x : ν} {t : CTree ν} (h : Rep H (some x) t) (hand : Hand) :
    Rep H ((H x).child hand) (t.child hand) := by
  cases t with
  | nil => simp at h
  | node c l y r =>
    obtain ⟨hy, -, hl, hr⟩ := h
    obtain rfl := Option.some.inj hy
    cases hand
    · exact hl
    · exact hr

omit [DecidableEq ν] in
theorem moveRed_test_of_rep {H : Heap ν} {p : Option ν} {t : CTree ν} (h : Rep H p t) :
    (p.isNone || (!Rbtree.isRed H p && !Rbtree.isRed H (Rbtree.leftOf H p))) =
      (t.isNil || (!t.isRed && !(t.child .left).isRed)) := by
  rw [isNone_of_rep h, isRed_of_rep h, isRed_of_rep (rep_leftOf h)]

/-! ## Replacing a child subtree -/

/-- After an operation on the subtree on side `hand` of `h`, storing the returned
    pointer in that child slot gives a heap holding the new tree at `h`. The
    operation may have written the record of `h`, but not its parent, its color or
    its other child, and the nodes of the new subtree. -/
theorem holds_near {H H₁ : Heap ν} {q p' : Option ν} {hand : Hand} {c : Color}
    {near far s' : CTree ν} {h : ν} (hn : (nodeOn hand c near h far).toList.Nodup)
    (hns : (nodeOn hand c s' h far).toList.Nodup)
    (hs : Holds H q (some h) (nodeOn hand c near h far)) (hc : Holds H₁ (some h) p' s')
    (hfr : ∀ y ∉ near.toList, y ≠ h → y ∉ s'.toList → H₁ y = H y)
    (hh : (H₁ h).parent = (H h).parent ∧ (H₁ h).color = (H h).color ∧
      (H₁ h).child hand.other = (H h).child hand.other) :
    Holds (H₁.setChild h hand p') q (some h) (nodeOn hand c s' h far) ∧
      ∀ y ∉ (nodeOn hand c near h far).toList, y ∉ s'.toList → H₁.setChild h hand p' y = H y := by
  obtain ⟨hr, hl⟩ := hs
  obtain ⟨-, hhc, -, hfar⟩ := rep_nodeOn.1 hr
  obtain ⟨hhp, -, hlfar⟩ := links_nodeOn.1 hl
  obtain ⟨-, -, -, hhf, hdis⟩ := nodup_nodeOn.1 hn
  obtain ⟨-, -, hhs, -, hdis'⟩ := nodup_nodeOn.1 hns
  have hff : ∀ y ∈ far.toList, H₁.setChild h hand p' y = H y := fun y hy => by
    have hyh : y ≠ h := fun e => hhf (e ▸ hy)
    rw [Heap.setChild_ne _ _ _ hyh]
    exact hfr y (fun e => hdis y e hy) hyh fun e => hdis' y e hy
  have hfs : ∀ y ∈ s'.toList, H₁.setChild h hand p' y = H₁ y := fun y hy =>
    Heap.setChild_ne _ _ _ fun e => hhs (e ▸ hy)
  refine ⟨⟨rep_nodeOn.2 ⟨rfl, by simp [hh.2.1, hhc], ?_, ?_⟩, links_nodeOn.2 ⟨by simp [hh.1, hhp],
    links_frame_outside hc.2 hfs, links_frame_outside hlfar hff⟩⟩, ?_⟩
  · simpa using rep_frame_outside hc.1 hfs
  · simpa [hh.2.2] using rep_frame_outside hfar hff
  · intro y hy hys
    have hyh : y ≠ h := fun e => hy (mem_nodeOn.2 (.inr (.inl e)))
    rw [Heap.setChild_ne _ _ _ hyh]
    exact hfr y (fun e => hy (mem_nodeOn.2 (.inl e))) hyh hys

theorem holds_near_of_frame {H H₁ : Heap ν} {q p' : Option ν} {hand : Hand} {c : Color}
    {near far s' : CTree ν} {h : ν} (hn : (nodeOn hand c near h far).toList.Nodup)
    (hs : Holds H q (some h) (nodeOn hand c near h far)) (hc : Holds H₁ (some h) p' s')
    (hsub : s'.toList.Sublist near.toList) (hfr : ∀ y ∉ near.toList, H₁ y = H y) :
    Holds (H₁.setChild h hand p') q (some h) (nodeOn hand c s' h far) ∧
      ∀ y ∉ (nodeOn hand c near h far).toList, H₁.setChild h hand p' y = H y := by
  have hsub' : (nodeOn hand c s' h far).toList.Sublist (nodeOn hand c near h far).toList :=
    sublist_nodeOn hsub
  have hh := hfr h (nodup_nodeOn.1 hn).2.2.1
  obtain ⟨hs', hf'⟩ := holds_near hn (hsub'.nodup hn) hs hc (fun y hy _ _ => hfr y hy)
    ⟨by rw [hh], by rw [hh], by rw [hh]⟩
  exact ⟨hs', fun y hy => hf' y hy fun e => hy (mem_nodeOn.2 (.inl (hsub.subset e)))⟩

omit [DecidableEq ν] in
theorem lendTest_of_rep {H : Heap ν} {p : Option ν} {t : CTree ν} (h : Rep H p t) :
    (p.isNone || !Rbtree.isRed H (Rbtree.leftOf H p)) = (t.isNil || !(t.child .left).isRed) := by
  rw [isNone_of_rep h, isRed_of_rep (rep_leftOf h)]

/-! ## `check_move_red` -/

theorem rotate_right_child_sim {H : Heap ν} {q : Option ν} {h : ν} {t t' : CTree ν}
    (hn : t.toList.Nodup) (hs : Holds H q (some h) t)
    (ht : (RbtreeShape.rotate .right (t.child .right)).map (t.setChild .right) = some t') :
    ∃ r x H', (H h).right = some r ∧ Rbtree.rotate H .right r = some (H', x) ∧
      Holds (H'.setChild h .right (some x)) q (some h) t' ∧
      ∀ y ∉ t.toList, H'.setChild h .right (some x) y = H y := by
  obtain ⟨r', hr', rfl⟩ := Option.map_eq_some_iff.1 ht
  cases t with
  | nil => simp [Holds] at hs
  | node c l y r₁ =>
    obtain rfl : h = y := Option.some.inj hs.1.1
    obtain ⟨-, -, -, hrr⟩ := hs.1
    obtain ⟨-, -, hlr⟩ := hs.2
    have hn' : (nodeOn .right c r₁ h l).toList.Nodup := hn
    -- the right child is a node, since it rotates
    obtain ⟨cr, a, z, b, rfl⟩ : ∃ cr a z b, r₁ = node cr a z b := by
      cases r₁ with
      | nil => simp [RbtreeShape.rotate] at hr'
      | node cr a z b => exact ⟨cr, a, z, b, rfl⟩
    have hz : (H h).right = some z := hrr.1
    have hr'' : RbtreeShape.rotate .right (node cr a z b) = some r' := by simpa using hr'
    obtain ⟨H', x, hrot, hs', hf'⟩ := rotate_sim' (nodup_nodeOn.1 hn').1 ⟨hz ▸ hrr, hlr⟩ hr''
    refine ⟨z, x, H', hz, hrot, ?_⟩
    have := holds_near_of_frame hn' hs hs' (by rw [rotate_toList hr'']) hf'
    simpa using this

theorem checkMoveRed_sim {H : Heap ν} {q : Option ν} {h : ν} {hand : Hand} {t t' : CTree ν}
    (hn : t.toList.Nodup) (hs : Holds H q (some h) t)
    (ht : RbtreeShape.checkMoveRed t hand = some t') :
    ∃ H' h', Rbtree.checkMoveRed H h hand = some (H', h') ∧ Holds H' q (some h') t' ∧
      ∀ y ∉ t.toList, H' y = H y := by
  unfold RbtreeShape.checkMoveRed at ht
  unfold Rbtree.checkMoveRed
  dsimp only at ht ⊢
  rw [moveRed_test_of_rep (rep_child hs.1 hand)]
  by_cases hc : ((t.child hand).isNil || (!(t.child hand).isRed && !((t.child hand).child .left).isRed)) = true
  · rw [if_pos hc] at ht ⊢
    obtain ⟨t₁, h₁, ht⟩ := Option.bind_eq_some_iff.1 ht
    obtain ⟨H₁, hH₁, hs₁, hf₁⟩ := colorFlip_sim hn hs h₁
    have hn₁ : t₁.toList.Nodup := by rw [colorFlip_toList h₁]; exact hn
    simp only [hH₁, Option.bind_eq_bind, Option.bind_some]
    rw [lendTest_of_rep (rep_child hs₁.1 hand.other)]
    by_cases hc₂ : ((t₁.child hand.other).isNil || !((t₁.child hand.other).child .left).isRed) = true
    · rw [if_pos hc₂] at ht ⊢
      cases ht
      exact ⟨H₁, h, rfl, hs₁, hf₁⟩
    · rw [if_neg hc₂] at ht ⊢
      obtain ⟨t₂, h₂, ht⟩ := Option.bind_eq_some_iff.1 ht
      obtain ⟨t₃, h₃, h₄⟩ := Option.bind_eq_some_iff.1 ht
      -- the optional rotation of the right child, before the rotation at `h`
      obtain ⟨H₂, hH₂, hs₂, hf₂, he₂⟩ : ∃ H₂, (if hand = .left then
            (H₁ h).right.bind fun r => (Rbtree.rotate H₁ .right r).bind fun x =>
              pure (x.fst.setChild h .right (some x.snd))
          else pure H₁) = some H₂ ∧
          Holds H₂ q (some h) t₂ ∧ (∀ y ∉ t₁.toList, H₂ y = H₁ y) ∧ t₂.toList = t₁.toList := by
        cases hand with
        | left =>
          simp only [if_true] at h₂ ⊢
          obtain ⟨r, x, H', hr, hrot, hs', hf'⟩ := rotate_right_child_sim hn₁ hs₁ h₂
          refine ⟨_, by simp [hr, hrot], hs', hf', ?_⟩
          obtain ⟨r', hr', rfl⟩ := Option.map_eq_some_iff.1 h₂
          exact setChild_toList_of_child .right (rotate_toList hr')
        | right =>
          simp only [reduceCtorEq, if_false, Option.pure_def, Option.some.injEq] at h₂ ⊢
          exact ⟨H₁, rfl, h₂ ▸ hs₁, fun _ _ => rfl, by rw [h₂]⟩
      have hn₂ : t₂.toList.Nodup := by rw [he₂]; exact hn₁
      obtain ⟨H₃, h', hH₃, hs₃, hf₃⟩ := rotate_sim' hn₂ hs₂ h₃
      have hn₃ : t₃.toList.Nodup := by rw [rotate_toList h₃]; exact hn₂
      obtain ⟨H₄, hH₄, hs₄, hf₄⟩ := colorFlip_sim hn₃ hs₃ h₄
      refine ⟨H₄, h', by rw [hH₂]; simp [hH₃, hH₄], hs₄, fun y hy => ?_⟩
      have hy₁ : y ∉ t₁.toList := by rwa [colorFlip_toList h₁]
      rw [hf₄ y (by rwa [rotate_toList h₃, he₂]), hf₃ y (by rwa [he₂]), hf₂ y hy₁, hf₁ y hy]
  · rw [if_neg hc] at ht ⊢
    cases ht
    exact ⟨H, h, rfl, hs, fun _ _ => rfl⟩

/-! ## `fix_up` -/

theorem rotateIf_sim {H : Heap ν} {q : Option ν} {h : ν} {hand : Hand} {b : Bool} {t t' : CTree ν}
    (hn : t.toList.Nodup) (hs : Holds H q (some h) t)
    (ht : (if b = true then RbtreeShape.rotate hand t else pure t) = some t') :
    ∃ H' h', (if b = true then Rbtree.rotate H hand h else pure (H, h)) = some (H', h') ∧
      Holds H' q (some h') t' ∧ (∀ y ∉ t.toList, H' y = H y) ∧ t'.toList = t.toList := by
  cases b with
  | true =>
    simp only [if_true] at ht ⊢
    obtain ⟨H', h', hrot, hs', hf⟩ := rotate_sim' hn hs ht
    exact ⟨H', h', hrot, hs', hf, rotate_toList ht⟩
  | false =>
    simp only [Bool.false_eq_true, if_false, Option.pure_def, Option.some.injEq] at ht ⊢
    exact ⟨H, h, rfl, ht ▸ hs, fun _ _ => rfl, by rw [ht]⟩

theorem fixUp_sim {H : Heap ν} {q : Option ν} {h : ν} {t t' : CTree ν} (hn : t.toList.Nodup)
    (hs : Holds H q (some h) t) (ht : RbtreeShape.fixUp t = some t') :
    ∃ H' h', Rbtree.fixUp H h = some (H', h') ∧ Holds H' q (some h') t' ∧
      ∀ y ∉ t.toList, H' y = H y := by
  unfold RbtreeShape.fixUp at ht
  unfold Rbtree.fixUp
  obtain ⟨t₁, h₁, ht⟩ := Option.bind_eq_some_iff.1 ht
  obtain ⟨t₂, h₂, h₃⟩ := Option.bind_eq_some_iff.1 ht
  -- first test: a right-leaning red link
  have hl : Rep H (H h).left (t.child .left) := rep_child hs.1 .left
  have hr : Rep H (H h).right (t.child .right) := rep_child hs.1 .right
  rw [isRed_of_rep hl, isRed_of_rep hr]
  obtain ⟨H₁, g₁, e₁, hs₁, hf₁, he₁⟩ := rotateIf_sim hn hs h₁
  have hn₁ : t₁.toList.Nodup := by rw [he₁]; exact hn
  rw [e₁]
  simp only [Option.bind_eq_bind, Option.bind_some]
  -- second test: two red links in a row on the left
  have hl₁ : Rep H₁ (H₁ g₁).left (t₁.child .left) := rep_child hs₁.1 .left
  rw [isRed_of_rep hl₁, isRed_of_rep (rep_leftOf hl₁)]
  obtain ⟨H₂, g₂, e₂, hs₂, hf₂, he₂⟩ := rotateIf_sim hn₁ hs₁ h₂
  have hn₂ : t₂.toList.Nodup := by rw [he₂]; exact hn₁
  rw [e₂]
  simp only [Option.bind_some]
  -- third test: a 4-node to split
  have hl₂ : Rep H₂ (H₂ g₂).left (t₂.child .left) := rep_child hs₂.1 .left
  have hr₂ : Rep H₂ (H₂ g₂).right (t₂.child .right) := rep_child hs₂.1 .right
  rw [isRed_of_rep hl₂, isRed_of_rep hr₂]
  have hf₁₂ : ∀ y ∉ t.toList, H₂ y = H y := fun y hy => by
    rw [hf₂ y (by rwa [he₁]), hf₁ y hy]
  split at h₃
  · rename_i hc
    obtain ⟨H₃, e₃, hs₃, hf₃⟩ := colorFlip_sim hn₂ hs₂ h₃
    refine ⟨H₃, g₂, by simp [hc, e₃], hs₃, fun y hy => ?_⟩
    rw [hf₃ y (by rwa [he₂, he₁]), hf₁₂ y hy]
  · rename_i hc
    cases h₃
    exact ⟨H₂, g₂, by simp [hc], hs₂, hf₁₂⟩

/-! ## Replacing a child and fixing up -/

/-- After storing an operation's result in child slot `hand` of `h`, `fix_up(h)`
    computes the tree function's fix-up of the new node. -/
theorem descend_sim {H H₁ : Heap ν} {q p' : Option ν} {hand : Hand} {c : Color}
    {near far s' t' : CTree ν} {h : ν} (hn : (nodeOn hand c near h far).toList.Nodup)
    (hns : (nodeOn hand c s' h far).toList.Nodup)
    (hs : Holds H q (some h) (nodeOn hand c near h far)) (hc : Holds H₁ (some h) p' s')
    (hfr : ∀ y ∉ near.toList, y ≠ h → y ∉ s'.toList → H₁ y = H y)
    (hh : (H₁ h).parent = (H h).parent ∧ (H₁ h).color = (H h).color ∧
      (H₁ h).child hand.other = (H h).child hand.other)
    (hf : RbtreeShape.fixUp (nodeOn hand c s' h far) = some t') :
    ∃ H' h', Rbtree.fixUp (H₁.setChild h hand p') h = some (H', h') ∧ Holds H' q (some h') t' ∧
      ∀ y ∉ (nodeOn hand c near h far).toList, y ∉ s'.toList → H' y = H y := by
  obtain ⟨hs₁, hf₁⟩ := holds_near hn hns hs hc hfr hh
  obtain ⟨H', h', e, hs', hf'⟩ := fixUp_sim hns hs₁ hf
  refine ⟨H', h', e, hs', fun y hy hys => ?_⟩
  have hy' : y ∉ (nodeOn hand c s' h far).toList := by
    simp only [mem_nodeOn, not_or] at hy ⊢
    exact ⟨hys, hy.2⟩
  rw [hf' y hy', hf₁ y hy hys]

theorem descend_sim_of_sublist {H H₁ : Heap ν} {q p' : Option ν} {hand : Hand} {c : Color}
    {near far s' t' : CTree ν} {h : ν} (hn : (nodeOn hand c near h far).toList.Nodup)
    (hs : Holds H q (some h) (nodeOn hand c near h far)) (hc : Holds H₁ (some h) p' s')
    (hsub : s'.toList.Sublist near.toList) (hfr : ∀ y ∉ near.toList, y ≠ h → H₁ y = H y)
    (hh : (H₁ h).parent = (H h).parent ∧ (H₁ h).color = (H h).color ∧
      (H₁ h).child hand.other = (H h).child hand.other)
    (hf : RbtreeShape.fixUp (nodeOn hand c s' h far) = some t') :
    ∃ H' h', Rbtree.fixUp (H₁.setChild h hand p') h = some (H', h') ∧ Holds H' q (some h') t' ∧
      ∀ y ∉ (nodeOn hand c near h far).toList, H' y = H y := by
  have hsub' : (nodeOn hand c s' h far).toList.Sublist (nodeOn hand c near h far).toList :=
    sublist_nodeOn hsub
  obtain ⟨H', h', e, hs', hf'⟩ :=
    descend_sim hn (hsub'.nodup hn) hs hc (fun y hy hyh _ => hfr y hy hyh) hh hf
  exact ⟨H', h', e, hs', fun y hy => hf' y hy fun e => hy (mem_nodeOn.2 (.inl (hsub.subset e)))⟩

/-! ## Frames -/

theorem holds_frame {H H' : Heap ν} {q p : Option ν} {t : CTree ν} (hs : Holds H q p t)
    (hf : ∀ y ∈ t.toList, H' y = H y) : Holds H' q p t :=
  ⟨rep_frame_outside hs.1 hf, links_frame_outside hs.2 hf⟩

theorem holds_setParentOf {H : Heap ν} {a b p : Option ν} {t : CTree ν} (hn : t.toList.Nodup)
    (hs : Holds H a p t) : Holds (H.setParentOf p b) b p t := by
  cases t with
  | nil =>
    obtain rfl : p = none := hs.1
    exact ⟨rfl, trivial⟩
  | node c l x r =>
    obtain rfl : p = some x := hs.1.1
    obtain ⟨-, -, hxl, hxr, -⟩ := nodup_node.1 hn
    have hkeep : ∀ y, y ≠ x → H.setParent x b y = H y := fun y hy => Heap.setParent_ne H b hy
    refine ⟨rep_frame hs.1 fun y _ => ?_, by simp, links_frame hs.2.2.1 fun y hy => ?_,
      links_frame hs.2.2.2 fun y hy => ?_⟩
    · by_cases hy : y = x
      · subst hy; simp
      · simp [hkeep y hy]
    · simp [hkeep y fun e => hxl (e ▸ hy)]
    · simp [hkeep y fun e => hxr (e ▸ hy)]

theorem holds_blacken {H : Heap ν} {x : ν} {t : CTree ν} (hn : t.toList.Nodup)
    (hs : Holds H none (some x) t) :
    Holds (H.setColor x .black) none (some x) t.blacken ∧
      ∀ y ∉ t.toList, H.setColor x .black y = H y := by
  cases t with
  | nil => simp [Holds] at hs
  | node c l z r =>
    obtain rfl : x = z := Option.some.inj hs.1.1
    obtain ⟨-, -, hxl, hxr, -⟩ := nodup_node.1 hn
    have hl : ∀ y ∈ l.toList, H.setColor x .black y = H y := fun y hy =>
      Heap.setColor_ne _ _ fun e => hxl (e ▸ hy)
    have hr : ∀ y ∈ r.toList, H.setColor x .black y = H y := fun y hy =>
      Heap.setColor_ne _ _ fun e => hxr (e ▸ hy)
    refine ⟨⟨⟨rfl, by simp, ?_, ?_⟩, by simpa using hs.2.1, links_frame_outside hs.2.2.1 hl,
      links_frame_outside hs.2.2.2 hr⟩, fun y hy => Heap.setColor_ne _ _ fun e => hy (by simp [e])⟩
    · simpa using rep_frame_outside hs.1.2.2.1 hl
    · simpa using rep_frame_outside hs.1.2.2.2 hr

end Nanos.RbtreeRefinement
