import Nanos.RbtreeInsert

set_option autoImplicit false

/-!
# Removal keeps the left-leaning shape

`remove_internal` and `remove_min` descend top-down, pushing a red link ahead
of them with `check_move_red`, so that the node where the search ends is red.
On the way down the current node is red, or black with a red left child, or
black with a red right child (a node that `check_move_red(h, right)` or the
rotation of a red left child made lean right; the search then only goes right
from it), or the root. Each case has its own post-condition; `fix_up` repairs
the shape on the way back up.
-/

namespace Nanos.RbtreeRemove
open ColorTree CTree RbtreeShape RbtreeInsert
open Rbtree (compareNodes)

variable {ν κ : Type} [LinearOrder κ]

/-! ## `check_move_red` on the shapes the descent meets -/

section moveRed
variable {c : Color} {a b d e l r : CTree ν} {x y z w : ν}

theorem checkMoveRed_left_of_red (hl : l.isRed = true) :
    checkMoveRed (node c l x r) .left = some (node c l x r) := by
  simp [checkMoveRed, hl, isNil_eq_false_of_isRed hl]

theorem checkMoveRed_left_of_left_red (ha : a.isRed = true) :
    checkMoveRed (node c (node .black a x b) y r) .left = some (node c (node .black a x b) y r) := by
  simp [checkMoveRed, ha]

theorem checkMoveRed_left_flip (ha : a.isRed = false) (hd : d.isRed = false) :
    checkMoveRed (node c (node .black a x b) y (node .black d z e)) .left =
      some (node c.flip (node .red a x b) y (node .red d z e)) := by
  cases c <;> simp [checkMoveRed, colorFlip, ha, hd]

theorem checkMoveRed_left_rotate {d₁ d₂ : CTree ν} (ha : a.isRed = false) :
    checkMoveRed (node c (node .black a x b) y (node .black (node .red d₁ w d₂) z e)) .left =
      some (node c (node .black (node .red a x b) y d₁) w (node .black d₂ z e)) := by
  cases c <;> simp [checkMoveRed, colorFlip, rotate, ha]

theorem checkMoveRed_right_of_red (hr : r.isRed = true) :
    checkMoveRed (node c l x r) .right = some (node c l x r) := by
  simp [checkMoveRed, hr, isNil_eq_false_of_isRed hr]

theorem checkMoveRed_right_of_left_red (hd : d.isRed = true) :
    checkMoveRed (node c l x (node .black d y e)) .right = some (node c l x (node .black d y e)) := by
  simp [checkMoveRed, hd]

theorem checkMoveRed_right_flip (ha : a.isRed = false) (hd : d.isRed = false) :
    checkMoveRed (node c (node .black a x b) y (node .black d z e)) .right =
      some (node c.flip (node .red a x b) y (node .red d z e)) := by
  cases c <;> simp [checkMoveRed, colorFlip, ha, hd]

theorem checkMoveRed_right_rotate {a₁ a₂ : CTree ν} (hd : d.isRed = false) :
    checkMoveRed (node c (node .black (node .red a₁ w a₂) x b) y (node .black d z e)) .right =
      some (node c (node .black a₁ w a₂) x (node .black b y (node .red d z e))) := by
  cases c <;> simp [checkMoveRed, colorFlip, rotate, hd]

end moveRed

/-! ## `fix_up` on the shapes the descent leaves behind -/

section fixUp
variable {c : Color} {a b d e l r : CTree ν} {x y z w : ν}

theorem fixUp_rotate_left (hl : l.isRed = false) (he : e.isRed = false) :
    fixUp (node c l x (node .red d y e)) = some (node c (node .red l x d) y e) := by
  simp [fixUp, rotate, hl, he]

theorem fixUp_flip (ha : a.isRed = false) :
    fixUp (node c (node .red a x b) y (node .red d z e)) =
      some (node c.flip (node .black a x b) y (node .black d z e)) := by
  simp [fixUp, colorFlip, ha]

theorem fixUp_of_right_black (hr : r.isRed = false) (hl : (l.child .left).isRed = false) :
    fixUp (node c l x r) = some (node c l x r) := by
  simp [fixUp, hr, hl]

theorem fixUp_black_red_right {n : ℕ} (hL : LL n l) (hd : d.isRed = false) (he : e.isRed = false)
    (hdn : LL n d) (hen : LL n e) :
    ∃ t', fixUp (node .black l x (node .red d z e)) = some t' ∧ LL (n + 1) t' := by
  cases hlr : l.isRed with
  | false => exact ⟨_, fixUp_rotate_left hlr he, by simp [hlr, hL, hd, he, hdn, hen]⟩
  | true =>
    rcases l with _ | ⟨_ | _, a, y, b⟩
    · simp at hlr
    · simp at hlr
    · obtain ⟨ha, hb, han, hbn⟩ := (LL_red n a y b).1 hL
      exact ⟨_, fixUp_flip ha, by simp [hb, han, hbn, he, hdn, hen]⟩

theorem fixUp_of_black (hl : l.isRed = false) (hr : r.isRed = false) :
    fixUp (node c l x r) = some (node c l x r) := by
  simp [fixUp, hl, hr]

theorem fixUp_black_red_left {n : ℕ} {r' : CTree ν} (ha : a.isRed = false) (hb : b.isRed = false)
    (han : LL n a) (hbn : LL n b) (hr' : LL n r') :
    ∃ t', fixUp (node .black (node .red a y b) x r') = some t' ∧ LL (n + 1) t' := by
  cases hrr : r'.isRed with
  | false => exact ⟨_, fixUp_of_right_black hrr ha, by simp [hrr, ha, hb, han, hbn, hr']⟩
  | true =>
    rcases r' with _ | ⟨_ | _, d, z, e⟩
    · simp at hrr
    · simp at hrr
    · obtain ⟨hd, he, hdn, hen⟩ := (LL_red n d z e).1 hr'
      exact ⟨_, fixUp_flip ha, by simp [hb, han, hbn, he, hdn, hen]⟩

theorem fixUp_black_black_left {n : ℕ} {r' : CTree ν} (ha : a.isRed = false) (han : LL n a)
    (hr' : LL n r') :
    ∃ t', fixUp (node .black a y r') = some t' ∧ LL (n + 1) t' ∧ t'.isRed = false := by
  cases hrr : r'.isRed with
  | false => exact ⟨_, fixUp_of_black ha hrr, by simp [hrr, han, hr']⟩
  | true =>
    rcases r' with _ | ⟨_ | _, d, z, e⟩
    · simp at hrr
    · simp at hrr
    · obtain ⟨hd, he, hdn, hen⟩ := (LL_red n d z e).1 hr'
      exact ⟨_, fixUp_rotate_left ha he, by simp [ha, han, hd, he, hdn, hen]⟩

theorem fixUp_red_red_right {n : ℕ} (hL : LL n l) (hd : d.isRed = false) (he : e.isRed = false)
    (hdn : LL n d) (hen : LL n e) :
    ∃ t', fixUp (node .red l x (node .red d z e)) = some t' ∧ ∃ n', LL n' t'.blacken := by
  cases hlr : l.isRed with
  | false => exact ⟨_, fixUp_rotate_left hlr he, n + 1, by simp [hlr, hL, hd, he, hdn, hen]⟩
  | true =>
    rcases l with _ | ⟨_ | _, a, y, b⟩
    · simp at hlr
    · simp at hlr
    · obtain ⟨ha, hb, han, hbn⟩ := (LL_red n a y b).1 hL
      exact ⟨_, fixUp_flip ha, n + 2, by simp [hb, han, hbn, he, hdn, hen]⟩

theorem fixUp_red_red_left {n : ℕ} {r' : CTree ν} (ha : a.isRed = false) (hb : b.isRed = false)
    (han : LL n a) (hbn : LL n b) (hr' : LL n r') :
    ∃ t', fixUp (node .red (node .red a y b) x r') = some t' ∧ ∃ n', LL n' t'.blacken := by
  cases hrr : r'.isRed with
  | false => exact ⟨_, fixUp_of_right_black hrr ha, n + 1, by simp [hrr, ha, hb, han, hbn, hr']⟩
  | true =>
    rcases r' with _ | ⟨_ | _, d, z, e⟩
    · simp at hrr
    · simp at hrr
    · obtain ⟨hd, he, hdn, hen⟩ := (LL_red n d z e).1 hr'
      exact ⟨_, fixUp_flip ha, n + 2, by simp [hb, han, hbn, he, hdn, hen]⟩

end fixUp

/-! ## `remove_min` -/

/-- The descent enters a node only when it is red or its left child is red. -/
def Descends (t : CTree ν) : Prop := t.isRed = true ∨ (t.child .left).isRed = true

/-- What `remove_min` achieves on a tree of black height `n`: the minimum is
    detached, the rest keeps the black height, and a black root stays black. -/
def MinSpec (n : ℕ) (t : CTree ν) : Prop :=
  ∃ t' m, removeMin t = some (t', m) ∧ t.toList = m :: t'.toList ∧ LL n t' ∧
    (t.isRed = false → t'.isRed = false)

/-- The induction hypothesis of the descent: `MinSpec` on every smaller tree it may enter. -/
def MinBelow (t : CTree ν) : Prop :=
  ∀ s : CTree ν, s.size < t.size → ∀ n, LL n s → Descends s → MinSpec n s

section removeMin
variable {c c' : Color} {a b d e l r L R L' t'' : CTree ν} {x y z w x' m : ν} {n : ℕ}

theorem removeMin_nil_left : removeMin (node c nil x r) = some (nil, x) := by
  rw [removeMin]; simp

theorem removeMin_of_checkMoveRed (hl : l.isNil = false)
    (hc : checkMoveRed (node c l x r) .left = some (node c' L x' R))
    (hL : removeMin L = some (L', m)) (hf : fixUp (node c' L' x' R) = some t'') :
    removeMin (node c l x r) = some (t'', m) := by
  rw [removeMin]
  simp only [hl, Bool.false_eq_true, if_false]
  split
  · simp_all
  · rename_i t' ht'
    rw [hc] at ht'
    cases ht'
    simp [hL, hf]

/-- One level of `remove_min`, below the node that `check_move_red` left as `node c' L x' R`. -/
theorem removeMin_step (hl : l.isNil = false)
    (hc : checkMoveRed (node c l x r) .left = some (node c' L x' R))
    (hL : removeMin L = some (L', m)) (hLm : L.toList = m :: L'.toList)
    (hf : fixUp (node c' L' x' R) = some t'') :
    removeMin (node c l x r) = some (t'', m) ∧ (node c l x r).toList = m :: t''.toList := by
  refine ⟨removeMin_of_checkMoveRed hl hc hL hf, ?_⟩
  rw [← checkMoveRed_toList hc, fixUp_toList hf]
  simp [hLm]

theorem minSpec_red_leaf (ht : LL 0 (node .red nil x r)) : MinSpec 0 (node .red nil x r) := by
  obtain ⟨-, hr, -, hr0⟩ := (LL_red 0 nil x r).1 ht
  obtain rfl := LL_zero_black hr0 hr
  exact ⟨nil, x, removeMin_nil_left, rfl, by simp, by simp⟩

theorem minSpec_black_red_left (ht : LL (n + 1) (node .black l x r)) (hl : l.isRed = true)
    (ih : MinBelow (node .black l x r)) : MinSpec (n + 1) (node .black l x r) := by
  obtain ⟨hr, hln, hrn⟩ := (LL_black_succ n l x r).1 ht
  obtain ⟨l', m, hrm, hlm, hl', -⟩ := ih l (by simp only [size_node]; omega) n hln (.inl hl)
  have hLL : LL (n + 1) (node .black l' x r) := (LL_black_succ n l' x r).2 ⟨hr, hl', hrn⟩
  obtain ⟨h₁, h₂⟩ :=
    removeMin_step (isNil_eq_false_of_isRed hl) (checkMoveRed_left_of_red hl) hrm hlm (fixUp_LL hLL)
  exact ⟨_, m, h₁, h₂, hLL, fun _ => rfl⟩

theorem minSpec_red_left_red (ht : LL (n + 1) (node .red (node .black a y b) x r))
    (ha : a.isRed = true) (ih : MinBelow (node .red (node .black a y b) x r)) :
    MinSpec (n + 1) (node .red (node .black a y b) x r) := by
  obtain ⟨-, hr, hl, hrn⟩ := (LL_red _ _ x r).1 ht
  obtain ⟨l', m, hrm, hlm, hl', hlb⟩ := ih _ (by simp only [size_node]; omega) _ hl (.inr ha)
  have hLL : LL (n + 1) (node .red l' x r) := (LL_red _ l' x r).2 ⟨hlb rfl, hr, hl', hrn⟩
  obtain ⟨h₁, h₂⟩ := removeMin_step rfl (checkMoveRed_left_of_left_red ha) hrm hlm (fixUp_LL hLL)
  exact ⟨_, m, h₁, h₂, hLL, by simp⟩

theorem minSpec_red_flip (ht : LL (n + 1) (node .red (node .black a y b) x (node .black d z e)))
    (ha : a.isRed = false) (hd : d.isRed = false)
    (ih : MinBelow (node .red (node .black a y b) x (node .black d z e))) :
    MinSpec (n + 1) (node .red (node .black a y b) x (node .black d z e)) := by
  obtain ⟨-, -, hl, hr⟩ := (LL_red _ _ x _).1 ht
  obtain ⟨hb, han, hbn⟩ := (LL_black_succ n a y b).1 hl
  obtain ⟨he, hdn, hen⟩ := (LL_black_succ n d z e).1 hr
  -- the color flip made the left child red: the descent continues into it
  have hs : LL n (node .red a y b) := (LL_red n a y b).2 ⟨ha, hb, han, hbn⟩
  obtain ⟨L', m, hrm, hlm, hL', -⟩ := ih _ (by simp only [size_node]; omega) n hs (.inl rfl)
  obtain ⟨t'', hf, ht''⟩ := fixUp_black_red_right (x := x) (z := z) hL' hd he hdn hen
  obtain ⟨h₁, h₂⟩ := removeMin_step rfl (checkMoveRed_left_flip (c := .red) ha hd) hrm hlm hf
  exact ⟨t'', m, h₁, h₂, ht'', by simp⟩

theorem minSpec_red_rotate {d₁ d₂ : CTree ν}
    (ht : LL (n + 1) (node .red (node .black a y b) x (node .black (node .red d₁ w d₂) z e)))
    (ha : a.isRed = false)
    (ih : MinBelow (node .red (node .black a y b) x (node .black (node .red d₁ w d₂) z e))) :
    MinSpec (n + 1) (node .red (node .black a y b) x (node .black (node .red d₁ w d₂) z e)) := by
  obtain ⟨-, -, hl, hr⟩ := (LL_red _ _ x _).1 ht
  obtain ⟨hb, han, hbn⟩ := (LL_black_succ n a y b).1 hl
  obtain ⟨he, hdn, hen⟩ := (LL_black_succ n _ z e).1 hr
  obtain ⟨hd₁, hd₂, hd₁n, hd₂n⟩ := (LL_red n d₁ w d₂).1 hdn
  -- after the double rotation the descent enters a black node with a red left child
  have hs : LL (n + 1) (node .black (node .red a y b) x d₁) := by
    simp [ha, hb, han, hbn, hd₁, hd₁n]
  obtain ⟨L', m, hrm, hlm, hL', hLb⟩ := ih _ (by simp only [size_node]; omega) _ hs (.inr rfl)
  have hLL : LL (n + 1) (node .red L' w (node .black d₂ z e)) := by
    simp [hLb rfl, hL', he, hd₂n, hen]
  obtain ⟨h₁, h₂⟩ := removeMin_step rfl (checkMoveRed_left_rotate ha) hrm hlm (fixUp_LL hLL)
  exact ⟨_, m, h₁, h₂, hLL, by simp⟩

/-- `remove_min` on a left-leaning tree that it may enter. -/
theorem removeMin_spec (t : CTree ν) : ∀ n, LL n t → Descends t → MinSpec n t := by
  induction hs : t.size using Nat.strongRecOn generalizing t with
  | _ s ih =>
    subst hs
    have ih' : MinBelow t := fun u hu n hn hd => ih _ hu u rfl n hn hd
    intro n ht hd
    rcases t with _ | ⟨_ | _, l, x, r⟩
    · simp [Descends] at hd
    · -- a black node is entered only with a red left child
      have hl : l.isRed = true := by simpa [Descends] using hd
      cases n with
      | zero => simp at ht
      | succ n => exact minSpec_black_red_left ht hl ih'
    · rcases l with _ | ⟨_ | _, a, y, b⟩
      · obtain rfl : n = 0 := by simpa using ((LL_red n nil x r).1 ht).2.2.1
        exact minSpec_red_leaf ht
      · cases n with
        | zero => simp at ht
        | succ n =>
          cases ha : a.isRed with
          | true => exact minSpec_red_left_red ht ha ih'
          | false =>
            -- both children are 2-nodes: the shape of the right one decides the rotation
            rcases r with _ | ⟨_ | _, d, z, e⟩
            · simp at ht
            · rcases d with _ | ⟨_ | _, d₁, w, d₂⟩
              · exact minSpec_red_flip ht ha rfl ih'
              · exact minSpec_red_flip ht ha rfl ih'
              · exact minSpec_red_rotate ht ha ih'
            · simp at ht
      · simp at ht

end removeMin

/-! ## `remove_internal` -/

section removeInternal
variable (key : ν → κ) (k : ν)
variable {c c' c₁ c₂ : Color} {l r L R L' l₁ r₁ l₂ r₂ r' rnew t'' : CTree ν} {x x' x₁ x₂ rmin : ν}
  {res : Bool}

theorem removeInternal_lt_nil (h : compareNodes key k x = .lt) :
    removeInternal key k (node c nil x r) = some (node c nil x r, false) := by
  rw [removeInternal]; simp [h]

theorem removeInternal_lt (h : compareNodes key k x = .lt) (hl : l.isNil = false)
    (hc : checkMoveRed (node c l x r) .left = some (node c' L x' R))
    (hL : removeInternal key k L = some (L', res)) (hf : fixUp (node c' L' x' R) = some t'') :
    removeInternal key k (node c l x r) = some (t'', res) := by
  rw [removeInternal]
  simp only [h, hl, if_true, Bool.false_eq_true, if_false]
  split
  · simp_all
  · rename_i t' ht'
    rw [hc] at ht'
    cases ht'
    simp [hL, hf]

theorem removeInternal_gt_nil (h : compareNodes key k x = .gt) :
    removeInternal key k (node c l x nil) = some (node c l x nil, false) := by
  rw [removeInternal]; simp [h]

theorem removeInternal_leaf (h : compareNodes key k x = .eq) :
    removeInternal key k (node c nil x nil) = some (nil, true) := by
  rw [removeInternal]; simp [h]

theorem removeInternal_right (hlt : compareNodes key k x ≠ .lt)
    (hgt : ¬(compareNodes key k x = .gt ∧ r.isNil = true))
    (hr : (if l.isRed then rotate .right (node c l x r) else some (node c l x r)) =
      some (node c₁ l₁ x₁ r₁)) (hr₁ : r₁.isNil = false)
    (hm : checkMoveRed (node c₁ l₁ x₁ r₁) .right = some (node c₂ l₂ x₂ r₂))
    (hne : compareNodes key k x₂ ≠ .eq) (hr₂ : r₂.isNil = false)
    (hR : removeInternal key k r₂ = some (r', res)) (hf : fixUp (node c₂ l₂ x₂ r') = some t'') :
    removeInternal key k (node c l x r) = some (t'', res) := by
  rw [removeInternal]
  simp only [hlt, hgt, if_false]
  split
  · simp_all
  · simp_all
  · rename_i c₃ l₃ x₃ r₃ h₃
    rw [hr] at h₃
    cases h₃
    rw [if_neg (by simp [hr₁])]
    split
    · simp_all
    · simp_all
    · rename_i c₄ l₄ x₄ r₄ h₄
      rw [hm] at h₄
      cases h₄
      simp [hne, hr₂, hR, hf]

theorem removeInternal_replace (hlt : compareNodes key k x ≠ .lt)
    (hgt : ¬(compareNodes key k x = .gt ∧ r.isNil = true))
    (hr : (if l.isRed then rotate .right (node c l x r) else some (node c l x r)) =
      some (node c₁ l₁ x₁ r₁)) (hr₁ : r₁.isNil = false)
    (hm : checkMoveRed (node c₁ l₁ x₁ r₁) .right = some (node c₂ l₂ x₂ r₂))
    (heq : compareNodes key k x₂ = .eq) (hr₂ : r₂.isNil = false)
    (hR : removeMin r₂ = some (rnew, rmin)) (hf : fixUp (node c₂ l₂ rmin rnew) = some t'') :
    removeInternal key k (node c l x r) = some (t'', true) := by
  rw [removeInternal]
  simp only [hlt, hgt, if_false]
  split
  · simp_all
  · simp_all
  · rename_i c₃ l₃ x₃ r₃ h₃
    rw [hr] at h₃
    cases h₃
    rw [if_neg (by simp [hr₁])]
    split
    · simp_all
    · simp_all
    · rename_i c₄ l₄ x₄ r₄ h₄
      rw [hm] at h₄
      cases h₄
      simp [heq, hr₂, hR, hf]

/-- `t'` and `res` are what removing the key of `k` from `t` has to give. -/
def Erased (t t' : CTree ν) (res : Bool) : Prop :=
  t'.toList = t.toList.filter (fun y => key y ≠ key k) ∧
    (res = true ↔ ∃ y ∈ t.toList, key y = key k)

/-- `remove_internal` succeeds on `t`, removes the key of `k`, and leaves a tree
    that satisfies `post`. -/
def RemoveSpec (post : CTree ν → Prop) (t : CTree ν) : Prop :=
  ∃ t' res, removeInternal key k t = some (t', res) ∧ Erased key k t t' res ∧ post t'

theorem erased_self {t : CTree ν} (h : ∀ y ∈ t.toList, key y ≠ key k) : Erased key k t t false := by
  refine ⟨(List.filter_eq_self.2 fun y hy => by simpa using h y hy).symm, ?_⟩
  simp only [Bool.false_eq_true, false_iff, not_exists, not_and]
  exact h

theorem erased_append_left {L R L' : List ν} (hR : ∀ y ∈ R, key y ≠ key k)
    (hL' : L' = L.filter (fun y => key y ≠ key k)) (hres : res = true ↔ ∃ y ∈ L, key y = key k) :
    L' ++ R = (L ++ R).filter (fun y => key y ≠ key k) ∧
      (res = true ↔ ∃ y ∈ L ++ R, key y = key k) := by
  refine ⟨by rw [List.filter_append, hL', (List.filter_eq_self (l := R)).2 fun y hy => by simpa using hR y hy],
    ?_⟩
  rw [hres]
  constructor
  · rintro ⟨y, hy, hk⟩
    exact ⟨y, List.mem_append_left _ hy, hk⟩
  · rintro ⟨y, hy, hk⟩
    rcases List.mem_append.1 hy with hy | hy
    · exact ⟨y, hy, hk⟩
    · exact absurd hk (hR y hy)

theorem erased_append_right {L R R' : List ν} (hL : ∀ y ∈ L, key y ≠ key k)
    (hR' : R' = R.filter (fun y => key y ≠ key k)) (hres : res = true ↔ ∃ y ∈ R, key y = key k) :
    L ++ R' = (L ++ R).filter (fun y => key y ≠ key k) ∧
      (res = true ↔ ∃ y ∈ L ++ R, key y = key k) := by
  refine ⟨by rw [List.filter_append, hR', (List.filter_eq_self (l := L)).2 fun y hy => by simpa using hL y hy],
    ?_⟩
  rw [hres]
  constructor
  · rintro ⟨y, hy, hk⟩
    exact ⟨y, List.mem_append_right _ hy, hk⟩
  · rintro ⟨y, hy, hk⟩
    rcases List.mem_append.1 hy with hy | hy
    · exact absurd hk (hL y hy)
    · exact ⟨y, hy, hk⟩

theorem toList_of_rotateIf {t₁ : CTree ν}
    (hr : (if l.isRed then rotate .right (node c l x r) else some (node c l x r)) = some t₁) :
    t₁.toList = (node c l x r).toList := by
  split at hr
  · exact rotate_toList hr
  · cases hr; rfl

theorem removeSpec_lt_nil (hlt : key k < key x) (hs : Ordered key (node c nil x r)) :
    RemoveSpec key k (· = node c nil x r) (node c nil x r) := by
  have hxr := (ordered_split (L := []) hs).2
  refine ⟨_, false, removeInternal_lt_nil key k (by simpa using hlt), erased_self key k ?_, rfl⟩
  intro y hy
  simp only [toList_node, toList_nil, List.nil_append, List.mem_cons] at hy
  rcases hy with rfl | hy
  · exact hlt.ne'
  · exact (hlt.trans (hxr y hy)).ne'

theorem removeSpec_gt_nil (hgt : key x < key k) (hs : Ordered key (node c l x nil)) :
    RemoveSpec key k (· = node c l x nil) (node c l x nil) := by
  have hlx := (ordered_split (R := []) hs).1
  refine ⟨_, false, removeInternal_gt_nil key k (by simpa using hgt), erased_self key k ?_, rfl⟩
  intro y hy
  simp only [toList_node, toList_nil, List.mem_append, List.mem_singleton] at hy
  rcases hy with hy | rfl
  · exact ((hlx y hy).trans hgt).ne
  · exact hgt.ne

theorem removeSpec_leaf (heq : key k = key x) : RemoveSpec key k (· = nil) (node c nil x nil) := by
  refine ⟨nil, true, removeInternal_leaf key k (by simpa using heq), ⟨?_, ?_⟩, rfl⟩
  · simp [heq]
  · simp [heq]

/-- One level of the descent to the left, below the node that `check_move_red`
    left as `node c' L x' R`. -/
theorem removeSpec_lt {P Q : CTree ν → Prop} (hlt : key k < key x) (hl : l.isNil = false)
    (hc : checkMoveRed (node c l x r) .left = some (node c' L x' R)) (hx : x = x' ∨ x ∈ L.toList)
    (hs : Ordered key (node c l x r)) (hL : RemoveSpec key k P L)
    (hf : ∀ L', P L' → ∃ t'', fixUp (node c' L' x' R) = some t'' ∧ Q t'') :
    RemoveSpec key k Q (node c l x r) := by
  obtain ⟨L', res, hrm, ⟨hLo, hLr⟩, hP⟩ := hL
  obtain ⟨t'', hfix, hQ⟩ := hf L' hP
  have e : (node c l x r).toList = L.toList ++ x' :: R.toList := by
    rw [← checkMoveRed_toList hc, toList_node]
  have hs' : (L.toList ++ x' :: R.toList).Pairwise fun a b => key a < key b := by
    rw [← e]; exact hs
  obtain ⟨hLx, hxR⟩ := ordered_split hs'
  -- the new root is not below the old one, so no key right of it is the key of `k`
  have hxx : key x ≤ key x' := by
    rcases hx with rfl | hx
    · exact le_rfl
    · exact (hLx x hx).le
  have hR : ∀ y ∈ x' :: R.toList, key y ≠ key k := by
    intro y hy
    rcases List.mem_cons.1 hy with rfl | hy
    · exact (hlt.trans_le hxx).ne'
    · exact ((hlt.trans_le hxx).trans (hxR y hy)).ne'
  refine ⟨t'', res, removeInternal_lt key k (by simpa using hlt) hl hc hrm hfix, ?_, hQ⟩
  rw [Erased, fixUp_toList hfix, e, toList_node]
  exact erased_append_left key k hR hLo hLr

/-- One level of the descent to the right, below the node that the optional
    rotation and `check_move_red` left as `node c₂ l₂ x₂ r₂`. -/
theorem removeSpec_right {P Q : CTree ν → Prop} (hge : key x ≤ key k)
    (hgt : ¬(key x < key k ∧ r.isNil = true))
    (hr : (if l.isRed then rotate .right (node c l x r) else some (node c l x r)) =
      some (node c₁ l₁ x₁ r₁)) (hr₁ : r₁.isNil = false)
    (hm : checkMoveRed (node c₁ l₁ x₁ r₁) .right = some (node c₂ l₂ x₂ r₂))
    (hx : x = x₂ ∨ x ∈ r₂.toList) (hne : key k ≠ key x₂) (hr₂ : r₂.isNil = false)
    (hs : Ordered key (node c l x r)) (hR : RemoveSpec key k P r₂)
    (hf : ∀ r', P r' → ∃ t'', fixUp (node c₂ l₂ x₂ r') = some t'' ∧ Q t'') :
    RemoveSpec key k Q (node c l x r) := by
  obtain ⟨r', res, hrm, ⟨hRo, hRr⟩, hP⟩ := hR
  obtain ⟨t'', hfix, hQ⟩ := hf r' hP
  have e : (node c l x r).toList = (l₂.toList ++ [x₂]) ++ r₂.toList := by
    rw [← toList_of_rotateIf hr, ← checkMoveRed_toList hm, toList_node, List.append_cons]
  have hs' : (l₂.toList ++ x₂ :: r₂.toList).Pairwise fun a b => key a < key b := by
    rw [← List.append_cons] at e; rw [← e]; exact hs
  obtain ⟨hlx, hxr⟩ := ordered_split hs'
  -- the new root is not above the old one, so every key left of it is below the key of `k`
  have hxx : key x₂ < key k := by
    rcases hx with rfl | hx
    · exact lt_of_le_of_ne hge (Ne.symm hne)
    · exact lt_of_le_of_ne ((hxr x hx).le.trans hge) (Ne.symm hne)
  have hL : ∀ y ∈ l₂.toList ++ [x₂], key y ≠ key k := by
    intro y hy
    rcases List.mem_append.1 hy with hy | hy
    · exact ((hlx y hy).trans hxx).ne
    · rw [List.mem_singleton.1 hy]; exact hxx.ne
  refine ⟨t'', res, removeInternal_right key k (by simpa using hge) (by simpa using hgt) hr hr₁ hm
    (by simpa using hne) hr₂ hrm hfix, ?_, hQ⟩
  rw [Erased, fixUp_toList hfix, e, toList_node, List.append_cons]
  exact erased_append_right key k hL hRo hRr

/-- The match, with a right subtree: the minimum of that subtree takes its place. -/
theorem removeSpec_replace {n : ℕ} {Q : CTree ν → Prop} (hge : key x ≤ key k)
    (hgt : ¬(key x < key k ∧ r.isNil = true))
    (hr : (if l.isRed then rotate .right (node c l x r) else some (node c l x r)) =
      some (node c₁ l₁ x₁ r₁)) (hr₁ : r₁.isNil = false)
    (hm : checkMoveRed (node c₁ l₁ x₁ r₁) .right = some (node c₂ l₂ x₂ r₂))
    (heq : key k = key x₂) (hr₂ : r₂.isNil = false)
    (hs : Ordered key (node c l x r)) (hR : MinSpec n r₂)
    (hf : ∀ rnew rmin, LL n rnew → (r₂.isRed = false → rnew.isRed = false) →
      ∃ t'', fixUp (node c₂ l₂ rmin rnew) = some t'' ∧ Q t'') :
    RemoveSpec key k Q (node c l x r) := by
  obtain ⟨rnew, rmin, hrm, hrl, hLL, hcol⟩ := hR
  obtain ⟨t'', hfix, hQ⟩ := hf rnew rmin hLL hcol
  have e : (node c l x r).toList = l₂.toList ++ x₂ :: r₂.toList := by
    rw [← toList_of_rotateIf hr, ← checkMoveRed_toList hm, toList_node]
  have hs' : (l₂.toList ++ x₂ :: r₂.toList).Pairwise fun a b => key a < key b := by
    rw [← e]; exact hs
  obtain ⟨hlx, hxr⟩ := ordered_split hs'
  -- the key of `k` is the key of the new root only
  have hl : ∀ y ∈ l₂.toList, key y ≠ key k := fun y hy => heq ▸ (hlx y hy).ne
  have hr' : ∀ y ∈ r₂.toList, key y ≠ key k := fun y hy => heq ▸ (hxr y hy).ne'
  refine ⟨t'', true, removeInternal_replace key k (by simpa using hge) (by simpa using hgt) hr hr₁
    hm (by simpa using heq) hr₂ hrm hfix, ⟨?_, ?_⟩, hQ⟩
  · rw [fixUp_toList hfix, e, toList_node, ← hrl, List.filter_append,
      List.filter_cons_of_neg (p := fun y => decide (key y ≠ key k)) (by simpa using heq.symm),
      (List.filter_eq_self (l := l₂.toList)).2 fun y hy => by simpa using hl y hy,
      (List.filter_eq_self (l := r₂.toList)).2 fun y hy => by simpa using hr' y hy]
  · simp only [true_iff]
    exact ⟨x₂, by rw [e]; simp, heq.symm⟩

/-! ### The nodes the descent enters -/

/-- The post-condition below the root: the black height is kept, and a black
    node stays black. -/
def Kept (n : ℕ) (t t' : CTree ν) : Prop := LL n t' ∧ (t.isRed = false → t'.isRed = false)

/-- A black node whose right child is red, as `check_move_red(h, right)` or the
    rotation of a red left child leaves it; the search only goes right from it. -/
def RightRed (n : ℕ) (t : CTree ν) : Prop :=
  ∃ m b y c z d, n = m + 1 ∧ t = node .black b y (node .red c z d) ∧ b.isRed = false ∧
    c.isRed = false ∧ d.isRed = false ∧ LL m b ∧ LL m c ∧ LL m d ∧ key y ≤ key k

/-- The nodes that `remove_internal` enters below the root. -/
def Enters (n : ℕ) (t : CTree ν) : Prop := (LL n t ∧ Descends t) ∨ RightRed key k n t

/-- The induction hypothesis of the descent. -/
def RemoveBelow (t : CTree ν) : Prop :=
  ∀ s : CTree ν, s.size < t.size → ∀ n, Enters key k n s → Ordered key s →
    RemoveSpec key k (Kept n s) s

theorem RemoveSpec.mono {P Q : CTree ν → Prop} {t : CTree ν} (h : ∀ t', P t' → Q t') :
    RemoveSpec key k P t → RemoveSpec key k Q t := by
  rintro ⟨t', res, h₁, h₂, hP⟩
  exact ⟨t', res, h₁, h₂, h t' hP⟩

theorem removeSpec_nil : RemoveSpec key k (· = nil) (nil : CTree ν) :=
  ⟨nil, false, by rw [removeInternal], erased_self key k (by simp), rfl⟩

theorem rotateIf_of_not_red (hl : l.isRed = false) :
    (if l.isRed then rotate .right (node c l x r) else some (node c l x r)) =
      some (node c l x r) := by
  simp [hl]

theorem rotateIf_of_red {a b : CTree ν} {y : ν} :
    (if (node .red a y b).isRed then rotate .right (node c (node .red a y b) x r)
      else some (node c (node .red a y b) x r)) = some (node c a y (node .red b x r)) := by
  simp [rotate]

/-! ### Cases shared by a red node and the black root -/

section anyColor
variable {a b d e : CTree ν} {y z w : ν} {m : ℕ}

theorem removeSpec_lt_left_red (hl : LL (m + 1) (node .black a y b)) (hr : r.isRed = false)
    (hrn : LL (m + 1) r) (ha : a.isRed = true) (hlt : key k < key x)
    (hs : Ordered key (node c (node .black a y b) x r))
    (ih : RemoveBelow key k (node c (node .black a y b) x r)) :
    RemoveSpec key k (LL (m + 1 + c.weight)) (node c (node .black a y b) x r) := by
  have hL := ih _ (by simp only [size_node]; omega) _ (.inl ⟨hl, .inr ha⟩) hs.children.1
  refine removeSpec_lt key k hlt rfl (checkMoveRed_left_of_left_red ha) (.inl rfl) hs hL ?_
  rintro L' ⟨hL', hLb⟩
  have hLL : LL (m + 1 + c.weight) (node c L' x r) := LL_node.2 ⟨hr, fun _ => hLb rfl, hL', hrn⟩
  exact ⟨_, fixUp_LL hLL, hLL⟩

theorem removeSpec_lt_rotate {d₁ d₂ : CTree ν} (hl : LL (m + 1) (node .black a y b))
    (hr : LL (m + 1) (node .black (node .red d₁ w d₂) z e)) (ha : a.isRed = false)
    (hlt : key k < key x)
    (hs : Ordered key (node c (node .black a y b) x (node .black (node .red d₁ w d₂) z e)))
    (ih : RemoveBelow key k (node c (node .black a y b) x (node .black (node .red d₁ w d₂) z e))) :
    RemoveSpec key k (LL (m + 1 + c.weight))
      (node c (node .black a y b) x (node .black (node .red d₁ w d₂) z e)) := by
  obtain ⟨hb, han, hbn⟩ := (LL_black_succ m a y b).1 hl
  obtain ⟨he, hdn, hen⟩ := (LL_black_succ m _ z e).1 hr
  obtain ⟨hd₁, hd₂, hd₁n, hd₂n⟩ := (LL_red m d₁ w d₂).1 hdn
  have hc : checkMoveRed (node c (node .black a y b) x (node .black (node .red d₁ w d₂) z e)) .left =
      some (node c (node .black (node .red a y b) x d₁) w (node .black d₂ z e)) :=
    checkMoveRed_left_rotate ha
  -- the descent enters a black node whose left child the color flip made red
  have hsL : LL (m + 1) (node .black (node .red a y b) x d₁) := by
    simp [ha, hb, han, hbn, hd₁, hd₁n]
  have hL := ih _ (by simp only [size_node]; omega) _ (.inl ⟨hsL, .inr rfl⟩)
    (ordered_of_toList_eq (checkMoveRed_toList hc) hs).children.1
  refine removeSpec_lt key k hlt rfl hc (.inr (by simp)) hs hL ?_
  rintro L' ⟨hL', hLb⟩
  have hLL : LL (m + 1 + c.weight) (node c L' w (node .black d₂ z e)) :=
    LL_node.2 ⟨rfl, fun _ => hLb rfl, hL', by simp [he, hd₂n, hen]⟩
  exact ⟨_, fixUp_LL hLL, hLL⟩

theorem removeSpec_ge_right_left_red (hl : l.isRed = false) (hln : LL (m + 1) l)
    (hr : LL (m + 1) (node .black d z e)) (hd : d.isRed = true) (hge : key x ≤ key k)
    (hs : Ordered key (node c l x (node .black d z e)))
    (ih : RemoveBelow key k (node c l x (node .black d z e))) :
    RemoveSpec key k (LL (m + 1 + c.weight)) (node c l x (node .black d z e)) := by
  have hm : checkMoveRed (node c l x (node .black d z e)) .right =
      some (node c l x (node .black d z e)) := checkMoveRed_right_of_left_red hd
  have hgt : ¬(key x < key k ∧ (node .black d z e).isNil = true) := by simp
  rcases eq_or_ne (key k) (key x) with heq | hne
  · -- the match: the minimum of its right subtree takes its place
    refine removeSpec_replace key k hge hgt (rotateIf_of_not_red hl) rfl hm heq rfl hs
      (removeMin_spec _ _ hr (.inr hd)) ?_
    intro rnew rmin hrnew hrb
    have hLL : LL (m + 1 + c.weight) (node c l rmin rnew) :=
      LL_node.2 ⟨hrb rfl, fun _ => hl, hln, hrnew⟩
    exact ⟨_, fixUp_LL hLL, hLL⟩
  · refine removeSpec_right key k hge hgt (rotateIf_of_not_red hl) rfl hm (.inl rfl) hne rfl hs
      (ih _ (by simp only [size_node]; omega) _ (.inl ⟨hr, .inr hd⟩) hs.children.2) ?_
    rintro r' ⟨hr', hrb⟩
    have hLL : LL (m + 1 + c.weight) (node c l x r') := LL_node.2 ⟨hrb rfl, fun _ => hl, hln, hr'⟩
    exact ⟨_, fixUp_LL hLL, hLL⟩

theorem removeSpec_ge_rotate {a₁ a₂ : CTree ν} (hl : LL (m + 1) (node .black (node .red a₁ w a₂) y b))
    (hr : LL (m + 1) (node .black d z e)) (hd : d.isRed = false) (hge : key x ≤ key k)
    (hs : Ordered key (node c (node .black (node .red a₁ w a₂) y b) x (node .black d z e)))
    (ih : RemoveBelow key k (node c (node .black (node .red a₁ w a₂) y b) x (node .black d z e))) :
    RemoveSpec key k (LL (m + 1 + c.weight))
      (node c (node .black (node .red a₁ w a₂) y b) x (node .black d z e)) := by
  obtain ⟨hb, han, hbn⟩ := (LL_black_succ m _ y b).1 hl
  obtain ⟨-, ha₂, ha₁n, ha₂n⟩ := (LL_red m a₁ w a₂).1 han
  obtain ⟨he, hdn, hen⟩ := (LL_black_succ m d z e).1 hr
  have hm : checkMoveRed (node c (node .black (node .red a₁ w a₂) y b) x (node .black d z e)) .right =
      some (node c (node .black a₁ w a₂) y (node .black b x (node .red d z e))) :=
    checkMoveRed_right_rotate hd
  -- the new root comes from the left subtree, so its key is below the one of `k`
  have hyk : key y < key k := ((ordered_split hs).1 y (by simp)).trans_le hge
  have hsR : RightRed key k (m + 1) (node .black b x (node .red d z e)) :=
    ⟨m, b, x, d, z, e, rfl, rfl, hb, hd, he, hbn, hdn, hen, hge⟩
  have hR := ih _ (by simp only [size_node]; omega) _ (.inr hsR)
    (ordered_of_toList_eq (checkMoveRed_toList hm) hs).children.2
  refine removeSpec_right key k hge (by simp) (rotateIf_of_not_red rfl) rfl hm (.inr (by simp))
    hyk.ne' rfl hs hR ?_
  rintro r' ⟨hr', hrb⟩
  have hLL : LL (m + 1 + c.weight) (node c (node .black a₁ w a₂) y r') :=
    LL_node.2 ⟨hrb rfl, fun _ => rfl, by simp [ha₂, ha₁n, ha₂n], hr'⟩
  exact ⟨_, fixUp_LL hLL, hLL⟩

end anyColor

/-! ### The cases of each node the descent enters -/

section cases
variable {a b d e : CTree ν} {y z w : ν} {m n : ℕ}

theorem removeSpec_red_leaf (ht : LL n (node .red nil x r)) (hs : Ordered key (node .red nil x r)) :
    RemoveSpec key k (LL n) (node .red nil x r) := by
  obtain ⟨-, hr, hn, hrn⟩ := (LL_red n nil x r).1 ht
  obtain rfl : n = 0 := (LL_nil n).1 hn
  obtain rfl := LL_zero_black hrn hr
  rcases lt_trichotomy (key k) (key x) with hlt | heq | hgt
  · exact RemoveSpec.mono key k (fun _ h => by rw [h]; exact ht) (removeSpec_lt_nil key k hlt hs)
  · exact RemoveSpec.mono key k (fun _ h => by rw [h]; simp) (removeSpec_leaf key k heq)
  · exact RemoveSpec.mono key k (fun _ h => by rw [h]; exact ht) (removeSpec_gt_nil key k hgt hs)

theorem removeSpec_red_lt_flip (ht : LL (m + 1) (node .red (node .black a y b) x (node .black d z e)))
    (ha : a.isRed = false) (hd : d.isRed = false) (hlt : key k < key x)
    (hs : Ordered key (node .red (node .black a y b) x (node .black d z e)))
    (ih : RemoveBelow key k (node .red (node .black a y b) x (node .black d z e))) :
    RemoveSpec key k (LL (m + 1)) (node .red (node .black a y b) x (node .black d z e)) := by
  obtain ⟨-, -, hl, hr⟩ := (LL_red _ _ x _).1 ht
  obtain ⟨hb, han, hbn⟩ := (LL_black_succ m a y b).1 hl
  obtain ⟨he, hdn, hen⟩ := (LL_black_succ m d z e).1 hr
  have hc : checkMoveRed (node .red (node .black a y b) x (node .black d z e)) .left =
      some (node .black (node .red a y b) x (node .red d z e)) := checkMoveRed_left_flip ha hd
  have hL := ih _ (by simp only [size_node]; omega) m (.inl ⟨(LL_red m a y b).2 ⟨ha, hb, han, hbn⟩, .inl rfl⟩)
    (ordered_of_toList_eq (checkMoveRed_toList hc) hs).children.1
  refine removeSpec_lt key k hlt rfl hc (.inl rfl) hs hL ?_
  rintro L' ⟨hL', -⟩
  exact fixUp_black_red_right hL' hd he hdn hen

theorem removeSpec_red_ge_flip (ht : LL (m + 1) (node .red (node .black a y b) x (node .black d z e)))
    (ha : a.isRed = false) (hd : d.isRed = false) (hge : key x ≤ key k)
    (hs : Ordered key (node .red (node .black a y b) x (node .black d z e)))
    (ih : RemoveBelow key k (node .red (node .black a y b) x (node .black d z e))) :
    RemoveSpec key k (LL (m + 1)) (node .red (node .black a y b) x (node .black d z e)) := by
  obtain ⟨-, -, hl, hr⟩ := (LL_red _ _ x _).1 ht
  obtain ⟨hb, han, hbn⟩ := (LL_black_succ m a y b).1 hl
  obtain ⟨he, hdn, hen⟩ := (LL_black_succ m d z e).1 hr
  have hm : checkMoveRed (node .red (node .black a y b) x (node .black d z e)) .right =
      some (node .black (node .red a y b) x (node .red d z e)) := checkMoveRed_right_flip ha hd
  have hgt : ¬(key x < key k ∧ (node .black d z e).isNil = true) := by simp
  have hsR : LL m (node .red d z e) := (LL_red m d z e).2 ⟨hd, he, hdn, hen⟩
  rcases eq_or_ne (key k) (key x) with heq | hne
  · refine removeSpec_replace key k hge hgt (rotateIf_of_not_red rfl) rfl hm heq rfl hs
      (removeMin_spec _ _ hsR (.inl rfl)) ?_
    rintro rnew rmin hrnew -
    exact fixUp_black_red_left ha hb han hbn hrnew
  · refine removeSpec_right key k hge hgt (rotateIf_of_not_red rfl) rfl hm (.inl rfl) hne rfl hs
      (ih _ (by simp only [size_node]; omega) m (.inl ⟨hsR, .inl rfl⟩)
        (ordered_of_toList_eq (checkMoveRed_toList hm) hs).children.2) ?_
    rintro r' ⟨hr', -⟩
    exact fixUp_black_red_left ha hb han hbn hr'

theorem removeSpec_red (ht : LL n (node .red l x r)) (hs : Ordered key (node .red l x r))
    (ih : RemoveBelow key k (node .red l x r)) : RemoveSpec key k (LL n) (node .red l x r) := by
  obtain ⟨hl, hr, hln, hrn⟩ := (LL_red n l x r).1 ht
  rcases l with _ | ⟨_ | _, a, y, b⟩
  · exact removeSpec_red_leaf key k ht hs
  · cases n with
    | zero => simp at hln
    | succ m =>
      -- the right child is a black node of the same height
      rcases r with _ | ⟨_ | _, d, z, e⟩
      · simp at hrn
      · rcases lt_or_ge (key k) (key x) with hlt | hge
        · cases ha : a.isRed with
          | true => exact removeSpec_lt_left_red key k hln hr hrn ha hlt hs ih
          | false =>
            rcases d with _ | ⟨_ | _, d₁, w, d₂⟩
            · exact removeSpec_red_lt_flip key k ht ha rfl hlt hs ih
            · exact removeSpec_red_lt_flip key k ht ha rfl hlt hs ih
            · exact removeSpec_lt_rotate key k hln hrn ha hlt hs ih
        · cases hd : d.isRed with
          | true => exact removeSpec_ge_right_left_red key k hl hln hrn hd hge hs ih
          | false =>
            rcases a with _ | ⟨_ | _, a₁, w, a₂⟩
            · exact removeSpec_red_ge_flip key k ht rfl hd hge hs ih
            · exact removeSpec_red_ge_flip key k ht rfl hd hge hs ih
            · exact removeSpec_ge_rotate key k hln hrn hd hge hs ih
      · simp at hr
  · simp at hl

/-- A black node with a red left child keeps its black height and stays black. -/
theorem removeSpec_black_red_left (ht : LL n (node .black (node .red a y b) x r))
    (hs : Ordered key (node .black (node .red a y b) x r))
    (ih : RemoveBelow key k (node .black (node .red a y b) x r)) :
    RemoveSpec key k (Kept n (node .black (node .red a y b) x r)) (node .black (node .red a y b) x r) := by
  cases n with
  | zero => simp at ht
  | succ m =>
    obtain ⟨hr, hl, hrn⟩ := (LL_black_succ m _ x r).1 ht
    obtain ⟨ha, hb, han, hbn⟩ := (LL_red m a y b).1 hl
    rcases lt_or_ge (key k) (key x) with hlt | hge
    · -- the red left child is entered as it is
      have hL := ih _ (by simp only [size_node]; omega) m (.inl ⟨hl, .inl rfl⟩) hs.children.1
      refine removeSpec_lt key k hlt rfl (checkMoveRed_left_of_red rfl) (.inl rfl) hs hL ?_
      rintro L' ⟨hL', -⟩
      have hLL : LL (m + 1) (node .black L' x r) := (LL_black_succ m L' x r).2 ⟨hr, hL', hrn⟩
      exact ⟨_, fixUp_LL hLL, hLL, fun _ => rfl⟩
    · by_cases hgt : key x < key k ∧ r.isNil = true
      · obtain ⟨hgt, hnil⟩ := hgt
        obtain rfl := (isNil_iff r).1 hnil
        exact RemoveSpec.mono key k (fun _ h => by rw [h]; exact ⟨ht, fun _ => rfl⟩)
          (removeSpec_gt_nil key k hgt hs)
      · -- the red left child is rotated up, its parent becomes its red right child
        have hm : checkMoveRed (node .black a y (node .red b x r)) .right =
            some (node .black a y (node .red b x r)) := checkMoveRed_right_of_red rfl
        have hyk : key y < key k := ((ordered_split hs).1 y (by simp)).trans_le hge
        have hsR : LL m (node .red b x r) := (LL_red m b x r).2 ⟨hb, hr, hbn, hrn⟩
        have hR := ih _ (by simp only [size_node]; omega) m (.inl ⟨hsR, .inl rfl⟩)
          (ordered_of_toList_eq (toList_of_rotateIf rotateIf_of_red) hs).children.2
        refine removeSpec_right key k hge hgt rotateIf_of_red rfl hm (.inr (by simp)) hyk.ne' rfl hs
          hR ?_
        rintro r' ⟨hr', -⟩
        obtain ⟨t'', hf, hLL, hb'⟩ := fixUp_black_black_left ha han hr'
        exact ⟨t'', hf, hLL, fun _ => hb'⟩

theorem removeSpec_right_red (hb : b.isRed = false) (hd : d.isRed = false) (he : e.isRed = false)
    (hbn : LL m b) (hdn : LL m d) (hen : LL m e) (hyk : key y ≤ key k)
    (hs : Ordered key (node .black b y (node .red d z e)))
    (ih : RemoveBelow key k (node .black b y (node .red d z e))) :
    RemoveSpec key k (Kept (m + 1) (node .black b y (node .red d z e)))
      (node .black b y (node .red d z e)) := by
  have hm : checkMoveRed (node .black b y (node .red d z e)) .right =
      some (node .black b y (node .red d z e)) := checkMoveRed_right_of_red rfl
  have hgt : ¬(key y < key k ∧ (node .red d z e).isNil = true) := by simp
  have hsR : LL m (node .red d z e) := (LL_red m d z e).2 ⟨hd, he, hdn, hen⟩
  rcases eq_or_ne (key k) (key y) with heq | hne
  · refine removeSpec_replace key k hyk hgt (rotateIf_of_not_red hb) rfl hm heq rfl hs
      (removeMin_spec _ _ hsR (.inl rfl)) ?_
    rintro rnew rmin hrnew -
    obtain ⟨t'', hf, hLL, hb'⟩ := fixUp_black_black_left hb hbn hrnew
    exact ⟨t'', hf, hLL, fun _ => hb'⟩
  · refine removeSpec_right key k hyk hgt (rotateIf_of_not_red hb) rfl hm (.inl rfl) hne rfl hs
      (ih _ (by simp only [size_node]; omega) m (.inl ⟨hsR, .inl rfl⟩) hs.children.2) ?_
    rintro r' ⟨hr', -⟩
    obtain ⟨t'', hf, hLL, hb'⟩ := fixUp_black_black_left hb hbn hr'
    exact ⟨t'', hf, hLL, fun _ => hb'⟩

end cases

/-- `remove_internal` below the root: on every node it enters it removes the key
    of `k`, keeps the black height and leaves a black node black. -/
theorem removeInternal_spec (t : CTree ν) :
    ∀ n, Enters key k n t → Ordered key t → RemoveSpec key k (Kept n t) t := by
  induction hsz : t.size using Nat.strongRecOn generalizing t with
  | _ s ih =>
    subst hsz
    have ih' : RemoveBelow key k t := fun u hu n hn ho => ih _ hu u rfl n hn ho
    intro n hpre hs
    rcases hpre with ⟨ht, hd⟩ | ⟨m, b, y, d, z, e, rfl, rfl, hb, hd, he, hbn, hdn, hen, hyk⟩
    · rcases t with _ | ⟨_ | _, l, x, r⟩
      · simp [Descends] at hd
      · -- a black node is entered only with a red left child
        rcases l with _ | ⟨_ | _, a, y, b⟩
        · simp [Descends] at hd
        · simp [Descends] at hd
        · exact removeSpec_black_red_left key k ht hs ih'
      · exact RemoveSpec.mono key k (fun _ h => ⟨h, by simp⟩) (removeSpec_red key k ht hs ih')
    · exact removeSpec_right_red key k hb hd he hbn hdn hen hyk hs ih'

/-! ### The root -/

section root
variable {a b d e : CTree ν} {y z w : ν} {m n : ℕ}

/-- Going left from a black root whose children are both 2-nodes: the flip turns
    the root red, and the blackening in `rbtree_remove_by_key` repairs it. -/
theorem removeSpec_root_lt_flip
    (ht : LL (m + 1 + 1) (node .black (node .black a y b) x (node .black d z e)))
    (ha : a.isRed = false) (hd : d.isRed = false) (hlt : key k < key x)
    (hs : Ordered key (node .black (node .black a y b) x (node .black d z e))) :
    RemoveSpec key k (fun t' => ∃ n', LL n' t'.blacken)
      (node .black (node .black a y b) x (node .black d z e)) := by
  obtain ⟨-, hl, hr⟩ := (LL_black_succ _ _ x _).1 ht
  obtain ⟨hb, han, hbn⟩ := (LL_black_succ m a y b).1 hl
  obtain ⟨he, hdn, hen⟩ := (LL_black_succ m d z e).1 hr
  have hc : checkMoveRed (node .black (node .black a y b) x (node .black d z e)) .left =
      some (node .red (node .red a y b) x (node .red d z e)) := checkMoveRed_left_flip ha hd
  have hL := removeInternal_spec key k _ m (.inl ⟨(LL_red m a y b).2 ⟨ha, hb, han, hbn⟩, .inl rfl⟩)
    (ordered_of_toList_eq (checkMoveRed_toList hc) hs).children.1
  refine removeSpec_lt key k hlt rfl hc (.inl rfl) hs hL ?_
  rintro L' ⟨hL', -⟩
  exact fixUp_red_red_right hL' hd he hdn hen

theorem removeSpec_root_ge_flip
    (ht : LL (m + 1 + 1) (node .black (node .black a y b) x (node .black d z e)))
    (ha : a.isRed = false) (hd : d.isRed = false) (hge : key x ≤ key k)
    (hs : Ordered key (node .black (node .black a y b) x (node .black d z e))) :
    RemoveSpec key k (fun t' => ∃ n', LL n' t'.blacken)
      (node .black (node .black a y b) x (node .black d z e)) := by
  obtain ⟨-, hl, hr⟩ := (LL_black_succ _ _ x _).1 ht
  obtain ⟨hb, han, hbn⟩ := (LL_black_succ m a y b).1 hl
  obtain ⟨he, hdn, hen⟩ := (LL_black_succ m d z e).1 hr
  have hm : checkMoveRed (node .black (node .black a y b) x (node .black d z e)) .right =
      some (node .red (node .red a y b) x (node .red d z e)) := checkMoveRed_right_flip ha hd
  have hgt : ¬(key x < key k ∧ (node .black d z e).isNil = true) := by simp
  have hsR : LL m (node .red d z e) := (LL_red m d z e).2 ⟨hd, he, hdn, hen⟩
  rcases eq_or_ne (key k) (key x) with heq | hne
  · refine removeSpec_replace key k hge hgt (rotateIf_of_not_red rfl) rfl hm heq rfl hs
      (removeMin_spec _ _ hsR (.inl rfl)) ?_
    rintro rnew rmin hrnew -
    exact fixUp_red_red_left ha hb han hbn hrnew
  · refine removeSpec_right key k hge hgt (rotateIf_of_not_red rfl) rfl hm (.inl rfl) hne rfl hs
      (removeInternal_spec key k _ m (.inl ⟨hsR, .inl rfl⟩)
        (ordered_of_toList_eq (checkMoveRed_toList hm) hs).children.2) ?_
    rintro r' ⟨hr', -⟩
    exact fixUp_red_red_left ha hb han hbn hr'

theorem exists_LL_blacken {t : CTree ν} (h : LL n t) : ∃ n', LL n' t.blacken :=
  (LL_blacken h).elim (⟨_, ·⟩) (⟨_, ·⟩)

/-- `remove_internal` at a black root: the key of `k` is removed, and the tree is
    left-leaning again once its root is blackened. -/
theorem removeInternal_root {t : CTree ν} (ht : LL n t) (hb : t.isRed = false)
    (hs : Ordered key t) : RemoveSpec key k (fun t' => ∃ n', LL n' t'.blacken) t := by
  have ih : ∀ u : CTree ν, RemoveBelow key k u := fun _ s _ n hn ho => removeInternal_spec key k s n hn ho
  rcases t with _ | ⟨_ | _, l, x, r⟩
  · exact RemoveSpec.mono key k (fun _ h => ⟨0, by simp [h]⟩) (removeSpec_nil key k)
  · cases n with
    | zero => simp at ht
    | succ n =>
      obtain ⟨hr, hln, hrn⟩ := (LL_black_succ n l x r).1 ht
      rcases l with _ | ⟨_ | _, a, y, b⟩
      · -- a single black node
        obtain rfl : n = 0 := (LL_nil n).1 hln
        obtain rfl := LL_zero_black hrn hr
        rcases lt_trichotomy (key k) (key x) with hlt | heq | hgt
        · exact RemoveSpec.mono key k (fun _ h => by rw [h]; exact ⟨1, ht⟩)
            (removeSpec_lt_nil key k hlt hs)
        · exact RemoveSpec.mono key k (fun _ h => by rw [h]; exact ⟨0, by simp⟩)
            (removeSpec_leaf key k heq)
        · exact RemoveSpec.mono key k (fun _ h => by rw [h]; exact ⟨1, ht⟩)
            (removeSpec_gt_nil key k hgt hs)
      · cases n with
        | zero => simp at hln
        | succ m =>
          rcases r with _ | ⟨_ | _, d, z, e⟩
          · simp at hrn
          · rcases lt_or_ge (key k) (key x) with hlt | hge
            · cases ha : a.isRed with
              | true =>
                exact RemoveSpec.mono key k (fun _ => exists_LL_blacken)
                  (removeSpec_lt_left_red key k hln hr hrn ha hlt hs (ih _))
              | false =>
                rcases d with _ | ⟨_ | _, d₁, w, d₂⟩
                · exact removeSpec_root_lt_flip key k ht ha rfl hlt hs
                · exact removeSpec_root_lt_flip key k ht ha rfl hlt hs
                · exact RemoveSpec.mono key k (fun _ => exists_LL_blacken)
                    (removeSpec_lt_rotate key k hln hrn ha hlt hs (ih _))
            · cases hd : d.isRed with
              | true =>
                exact RemoveSpec.mono key k (fun _ => exists_LL_blacken)
                  (removeSpec_ge_right_left_red key k rfl hln hrn hd hge hs (ih _))
              | false =>
                rcases a with _ | ⟨_ | _, a₁, w, a₂⟩
                · exact removeSpec_root_ge_flip key k ht rfl hd hge hs
                · exact removeSpec_root_ge_flip key k ht rfl hd hge hs
                · exact RemoveSpec.mono key k (fun _ => exists_LL_blacken)
                    (removeSpec_ge_rotate key k hln hrn hd hge hs (ih _))
          · simp at hr
      · -- a red left child: the root is entered like any node below it
        exact RemoveSpec.mono key k (fun _ h => exists_LL_blacken h.1)
          (removeInternal_spec key k _ _ (.inl ⟨ht, .inr rfl⟩) hs)
  · simp at hb

end root

end removeInternal

end Nanos.RbtreeRemove
