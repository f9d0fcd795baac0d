import Mathlib.Order.Defs.Unbundled
import Mathlib.Logic.Function.Basic
import Mathlib.Data.Nat.Notation

set_option autoImplicit false

/-!
# Heap order on the implicit binary tree of a level-order array

The nodes `1 .. n` of a binary heap kept level by level: node `i` has the parent `i / 2` and the
children `2 i` and `2 i + 1`. The values stand at the nodes as a function `f`, compared by a strict
weak order `r`, read "sorts before". `OrderedFrom r n k f` says that no edge whose parent is at
least `k` has its parent sorting before its child; `k = 1` is the whole heap, a larger `k` the
part of it that a bottom-up construction has done. An ordered heap keeps at its root a value that
no value sorts after (`OrderedFrom.root_not_rel`).

A sift moves one value along a path by exchanges. `DownOrder` and `UpOrder` are what holds in
the middle of a sift down or up from the node `w`: every edge off `w` is in order, and the
neighbours of `w` stand as the direction of the sift needs. Each has start lemmas, a lemma for one
exchange and a finish lemma.
-/

namespace Nanos.HeapOrder

variable {α : Type*}

/-- The values with those at the nodes `x` and `y` exchanged. -/
def exchange (f : ℕ → α) (x y : ℕ) : ℕ → α :=
  Function.update (Function.update f x (f y)) y (f x)

theorem exchange_left (f : ℕ → α) {x y : ℕ} (h : x ≠ y) : exchange f x y x = f y := by
  simp [exchange, h]

theorem exchange_right (f : ℕ → α) (x y : ℕ) : exchange f x y y = f x := by
  simp [exchange]

theorem exchange_other (f : ℕ → α) {x y i : ℕ} (hx : i ≠ x) (hy : i ≠ y) :
    exchange f x y i = f i := by
  simp [exchange, hx, hy]

variable (r : α → α → Prop)

/-- No edge with its parent at `k` or below it in the tree (a node number at least `k`) has
    its parent sorting before its child. -/
def OrderedFrom (n k : ℕ) (f : ℕ → α) : Prop :=
  ∀ i, 2 ≤ i → i ≤ n → k ≤ i / 2 → ¬ r (f (i / 2)) (f i)

/-- In the middle of a sift down from `w`, within the edges whose parent is at least `k`: the
    edges off `w` are in order, the parent of `w` does not sort before it, and neither before
    the children of `w`. -/
structure DownOrder (n k : ℕ) (f : ℕ → α) (w : ℕ) : Prop where
  except : ∀ i, 2 ≤ i → i ≤ n → k ≤ i / 2 → i ≠ w → i / 2 ≠ w → ¬ r (f (i / 2)) (f i)
  above : k ≤ w / 2 → ¬ r (f (w / 2)) (f w)
  grand : k ≤ w / 2 → ∀ c, 2 ≤ c → c ≤ n → c / 2 = w → ¬ r (f (w / 2)) (f c)

/-- In the middle of a sift up from `w`: the edges off `w` are in order, the parent of `w` does
    not sort before the children of `w`, and neither does `w`. -/
structure UpOrder (n : ℕ) (f : ℕ → α) (w : ℕ) : Prop where
  except : ∀ i, 2 ≤ i → i ≤ n → i ≠ w → i / 2 ≠ w → ¬ r (f (i / 2)) (f i)
  grand : 2 ≤ w → ∀ c, 2 ≤ c → c ≤ n → c / 2 = w → ¬ r (f (w / 2)) (f c)
  below : ∀ c, 2 ≤ c → c ≤ n → c / 2 = w → ¬ r (f w) (f c)

variable {r}

/-! ## Strict weak orders -/

section Weak
variable [IsStrictWeakOrder α r] {a b c : α}

theorem not_rel_trans (hab : ¬ r a b) (hbc : ¬ r b c) : ¬ r a c := by
  intro hac
  have hcb : ¬ r c b := fun hcb => hab (IsTrans.trans _ _ _ hac hcb)
  have hba : ¬ r b a := fun hba => hbc (IsTrans.trans _ _ _ hba hac)
  exact (IsStrictWeakOrder.incomp_trans a b c ⟨hab, hba⟩ ⟨hbc, hcb⟩).1 hac

theorem not_rel_of_rel (h : r a b) : ¬ r b a :=
  fun h' => Std.Irrefl.irrefl a (IsTrans.trans _ _ _ h h')

theorem not_rel_of_rel_of_not_rel (hab : r a b) (hac : ¬ r a c) : ¬ r b c :=
  fun hbc => hac (IsTrans.trans _ _ _ hab hbc)

end Weak

/-! ## Ordered heaps -/

section Ordered
variable {n k : ℕ} {f g : ℕ → α}

theorem OrderedFrom.mono_size {m : ℕ} (h : OrderedFrom r n k f) (hm : m ≤ n) :
    OrderedFrom r m k f :=
  fun i hi hin hk => h i hi (by omega) hk

theorem OrderedFrom.congr (h : OrderedFrom r n k f) (hfg : ∀ i, 1 ≤ i → i ≤ n → f i = g i) :
    OrderedFrom r n k g := by
  intro i hi hin hk
  rw [← hfg i (by omega) hin, ← hfg (i / 2) (by omega) (by omega)]
  exact h i hi hin hk

theorem orderedFrom_of_half_lt (h : n / 2 < k) : OrderedFrom r n k f :=
  fun i _ hin hk => absurd hk (by omega)

/-- The root of an ordered heap: no value of the heap sorts after it. Along the chain of
    parents from a node to the root, no value sorts before its child. -/
theorem OrderedFrom.root_not_rel [IsStrictWeakOrder α r] (h : OrderedFrom r n 1 f) :
    ∀ i, 1 ≤ i → i ≤ n → ¬ r (f 1) (f i) := by
  intro i
  induction i using Nat.strongRecOn with
  | _ i ih =>
    intro hi hin
    rcases Nat.lt_or_ge i 2 with h2 | h2
    · rw [show i = 1 by omega]
      exact Std.Irrefl.irrefl (f 1)
    · have hup : ¬ r (f 1) (f (i / 2)) := ih (i / 2) (by omega) (by omega) (by omega)
      exact not_rel_trans hup (h i h2 hin (by omega))

end Ordered

/-! ## Sifting down -/

section Down
variable {n k : ℕ} {f g : ℕ → α} {w : ℕ}

theorem DownOrder.congr (o : DownOrder r n k f w) (hk : 1 ≤ k) (hfg : ∀ i, 1 ≤ i → f i = g i) :
    DownOrder r n k g w where
  except i hi hin hki hiw hpw := by
    rw [← hfg i (by omega), ← hfg (i / 2) (by omega)]
    exact o.except i hi hin hki hiw hpw
  above hkw := by
    rw [← hfg w (by omega), ← hfg (w / 2) (by omega)]
    exact o.above hkw
  grand hkw c hc hcn hcw := by
    rw [← hfg c (by omega), ← hfg (w / 2) (by omega)]
    exact o.grand hkw c hc hcn hcw

theorem DownOrder.start (h : OrderedFrom r n (k + 1) f) (hk : 1 ≤ k) : DownOrder r n k f k where
  except i hi hin hki _ hpk := h i hi hin (by omega)
  above hkk := absurd hkk (by omega)
  grand hkk := absurd hkk (by omega)

/-- A new value at the node `w` of an ordered heap that its parent does not sort before is
    sifted down from `w`: the parent of `w` did not sort before the old value, nor that before
    the children of `w`. -/
theorem DownOrder.of_update [IsStrictWeakOrder α r] (h : OrderedFrom r n 1 f) (e : α) (hw : 1 ≤ w)
    (habove : 2 ≤ w → ¬ r (f (w / 2)) e) : DownOrder r n 1 (Function.update f w e) w where
  except i hi hin _ hiw hpw := by
    simp only [Function.update_of_ne hiw, Function.update_of_ne hpw]
    exact h i hi hin (by omega)
  above hkw := by
    rw [Function.update_self, Function.update_of_ne (show w / 2 ≠ w by omega)]
    exact habove (by omega)
  grand hkw c hc hcn hcw := by
    have hpw : ¬ r (f (w / 2)) (f w) := h w (by omega) (by omega) hkw
    have hwc : ¬ r (f w) (f c) := by
      have := h c hc hcn (by omega)
      rwa [hcw] at this
    rw [Function.update_of_ne (show c ≠ w by omega), Function.update_of_ne (show w / 2 ≠ w by omega)]
    exact not_rel_trans hpw hwc

/-- One exchange of `w` with its child `c` that sorts after it, where no child of `w` sorts
    after `c`: the sift goes on from `c`. -/
theorem DownOrder.exchange [IsStrictWeakOrder α r] (o : DownOrder r n k f w) (hk : 1 ≤ k)
    (hkw : k ≤ w) {c : ℕ} (hcw : c / 2 = w) (hcn : c ≤ n)
    (hmax : ∀ s, 2 ≤ s → s ≤ n → s / 2 = w → ¬ r (f c) (f s)) (hlt : r (f w) (f c)) :
    DownOrder r n k (HeapOrder.exchange f w c) c where
  except i hi hin hki hic hpc := by
    by_cases hiw : i = w
    · -- the edge into `w`, which now holds the value of `c`
      subst hiw
      rw [exchange_left f (show i ≠ c by omega), exchange_other f (show i / 2 ≠ i by omega)
        (show i / 2 ≠ c by omega)]
      exact o.grand hki c (by omega) hcn hcw
    · by_cases hpw : i / 2 = w
      · -- a sibling of `c`, now below the value of `c`
        rw [hpw, exchange_left f (show w ≠ c by omega), exchange_other f hiw hic]
        exact hmax i hi hin hpw
      · rw [exchange_other f hiw hic, exchange_other f hpw hpc]
        exact o.except i hi hin hki hiw hpw
  above _ := by
    rw [hcw, exchange_right, exchange_left f (show w ≠ c by omega)]
    exact not_rel_of_rel hlt
  grand _ d hd hdn hdc := by
    rw [hcw, exchange_left f (show w ≠ c by omega),
      exchange_other f (show d ≠ w by omega) (show d ≠ c by omega)]
    have := o.except d hd hdn (by omega) (by omega) (by omega)
    rwa [hdc] at this

theorem DownOrder.finish (o : DownOrder r n k f w)
    (hstop : ∀ s, 2 ≤ s → s ≤ n → s / 2 = w → ¬ r (f w) (f s)) : OrderedFrom r n k f := by
  intro i hi hin hki
  by_cases hiw : i = w
  · subst hiw
    exact o.above hki
  · by_cases hpw : i / 2 = w
    · rw [hpw]
      exact hstop i hi hin hpw
    · exact o.except i hi hin hki hiw hpw

theorem DownOrder.finish_of_max [IsStrictWeakOrder α r] (o : DownOrder r n k f w) {c : ℕ}
    (hmax : ∀ s, 2 ≤ s → s ≤ n → s / 2 = w → ¬ r (f c) (f s)) (hwc : ¬ r (f w) (f c)) :
    OrderedFrom r n k f :=
  o.finish fun s hs hsn hsw => not_rel_trans hwc (hmax s hs hsn hsw)

end Down

/-! ## Sifting up -/

section Up
variable {n : ℕ} {f g : ℕ → α} {w : ℕ}

theorem UpOrder.congr (o : UpOrder r n f w) (hw : 1 ≤ w) (hfg : ∀ i, 1 ≤ i → f i = g i) :
    UpOrder r n g w where
  except i hi hin hiw hpw := by
    rw [← hfg i (by omega), ← hfg (i / 2) (by omega)]
    exact o.except i hi hin hiw hpw
  grand hw2 c hc hcn hcw := by
    rw [← hfg c (by omega), ← hfg (w / 2) (by omega)]
    exact o.grand hw2 c hc hcn hcw
  below c hc hcn hcw := by
    rw [← hfg c (by omega), ← hfg w hw]
    exact o.below c hc hcn hcw

theorem UpOrder.push (h : OrderedFrom r n 1 f) : UpOrder r (n + 1) f (n + 1) where
  except i hi hin hiw _ := h i hi (by omega) (by omega)
  grand _ c _ hcn hcw := absurd hcw (by omega)
  below c _ hcn hcw := absurd hcw (by omega)

/-- A new value at the node `w` of an ordered heap that sorts after the parent of `w` is sifted
    up from `w`: it sorts after what the parent does not sort before. -/
theorem UpOrder.of_update [IsStrictWeakOrder α r] (h : OrderedFrom r n 1 f) (e : α) (hw : 2 ≤ w)
    (hup : r (f (w / 2)) e) : UpOrder r n (Function.update f w e) w where
  except i hi hin hiw hpw := by
    simp only [Function.update_of_ne hiw, Function.update_of_ne hpw]
    exact h i hi hin (by omega)
  grand _ c hc hcn hcw := by
    rw [Function.update_of_ne (show c ≠ w by omega), Function.update_of_ne (show w / 2 ≠ w by omega)]
    have hwc : ¬ r (f w) (f c) := by
      have := h c hc hcn (by omega)
      rwa [hcw] at this
    exact not_rel_trans (h w hw (by omega) (by omega)) hwc
  below c hc hcn hcw := by
    rw [Function.update_self, Function.update_of_ne (show c ≠ w by omega)]
    have hwc : ¬ r (f w) (f c) := by
      have := h c hc hcn (by omega)
      rwa [hcw] at this
    exact not_rel_of_rel_of_not_rel hup (not_rel_trans (h w hw (by omega) (by omega)) hwc)

theorem UpOrder.exchange [IsStrictWeakOrder α r] (o : UpOrder r n f w) (hw : 2 ≤ w) (hwn : w ≤ n)
    (hlt : r (f (w / 2)) (f w)) : UpOrder r n (HeapOrder.exchange f (w / 2) w) (w / 2) where
  except i hi hin hip hpp := by
    have hiw : i ≠ w := fun h => hpp (by rw [h])
    by_cases hpw : i / 2 = w
    · -- a child of `w`, now below the old value of the parent
      rw [hpw, exchange_right, exchange_other f hip hiw]
      exact o.grand hw i hi hin hpw
    · rw [exchange_other f hip hiw, exchange_other f hpp hpw]
      exact o.except i hi hin hiw hpw
  grand hp c hc hcn hcp := by
    have hpp : ¬ r (f (w / 2 / 2)) (f (w / 2)) :=
      o.except (w / 2) hp (by omega) (by omega) (by omega)
    rw [exchange_other f (show w / 2 / 2 ≠ w / 2 by omega) (show w / 2 / 2 ≠ w by omega)]
    by_cases hcw : c = w
    · subst hcw
      rw [exchange_right]
      exact hpp
    · -- the sibling of `w`, below the old value of the parent
      rw [exchange_other f (show c ≠ w / 2 by omega) hcw]
      have := o.except c hc hcn hcw (by omega)
      rw [hcp] at this
      exact not_rel_trans hpp this
  below c hc hcn hcp := by
    rw [exchange_left f (show w / 2 ≠ w by omega)]
    by_cases hcw : c = w
    · subst hcw
      rw [exchange_right]
      exact not_rel_of_rel hlt
    · rw [exchange_other f (show c ≠ w / 2 by omega) hcw]
      have := o.except c hc hcn hcw (by omega)
      rw [hcp] at this
      exact not_rel_of_rel_of_not_rel hlt this

theorem UpOrder.finish (o : UpOrder r n f w) (hstop : 2 ≤ w → w ≤ n → ¬ r (f (w / 2)) (f w)) :
    OrderedFrom r n 1 f := by
  intro i hi hin _
  by_cases hiw : i = w
  · subst hiw
    exact hstop hi hin
  · by_cases hpw : i / 2 = w
    · rw [hpw]
      exact o.below i hi hin hpw
    · exact o.except i hi hin hiw hpw

end Up

end Nanos.HeapOrder
