import Mathlib.Order.Interval.Set.LinearOrder
import Mathlib.Data.Set.BooleanAlgebra
import Mathlib.Order.CompletePartialOrder

set_option autoImplicit false

/-!
# Half-open intervals along a list

Items that each carry a half-open interval `[lo x, hi x)` of a linear order: the set
of points that a list of them covers, and the two orders of such a list, `Chain`
(every interval ends at or before the start of every later one) and `Apart` (ends
strictly before, so no two intervals touch). For non-empty intervals a chain is the
same as a list that is increasing in `lo` and whose intervals are pairwise disjoint.
-/

namespace Nanos.Intervals

variable {β α : Type} [LinearOrder α] (lo hi : β → α)

def covered (L : List β) : Set α := {a | ∃ x ∈ L, lo x ≤ a ∧ a < hi x}

/-- Every interval ends at or before the start of every later one. -/
def Chain (L : List β) : Prop := L.Pairwise fun x y => hi x ≤ lo y

/-- Every interval ends strictly before the start of every later one. -/
def Apart (L : List β) : Prop := L.Pairwise fun x y => hi x < lo y

/-- The intervals of `L`, none of them empty, follow one another from `a` to `b`: a partition
    of `[a, b)` in increasing order. -/
def Tiles (a b : α) : List β → Prop
  | [] => a = b
  | x :: L => lo x = a ∧ lo x < hi x ∧ Tiles (hi x) b L

variable {lo hi}

@[simp] theorem tiles_nil {a b : α} : Tiles lo hi a b ([] : List β) ↔ a = b := Iff.rfl

@[simp] theorem tiles_cons {a b : α} {x : β} {L : List β} :
    Tiles lo hi a b (x :: L) ↔ lo x = a ∧ lo x < hi x ∧ Tiles lo hi (hi x) b L := Iff.rfl

theorem Tiles.append {a b c : α} {L M : List β} (hL : Tiles lo hi a b L) (hM : Tiles lo hi b c M) :
    Tiles lo hi a c (L ++ M) := by
  induction L generalizing a with
  | nil => rw [tiles_nil] at hL; subst hL; exact hM
  | cons x L ih =>
    obtain ⟨hx, hlt, hL⟩ := hL
    exact ⟨hx, hlt, ih hL⟩

theorem Tiles.le {a b : α} {L : List β} (h : Tiles lo hi a b L) : a ≤ b := by
  induction L generalizing a with
  | nil => exact (tiles_nil.1 h).le
  | cons x L ih =>
    obtain ⟨hx, hlt, hL⟩ := h
    exact hx ▸ hlt.le.trans (ih hL)

theorem Tiles.mem_bounds {a b : α} {L : List β} (h : Tiles lo hi a b L) :
    ∀ y ∈ L, a ≤ lo y ∧ lo y < hi y ∧ hi y ≤ b := by
  induction L generalizing a with
  | nil => intro y hy; cases hy
  | cons x L ih =>
    obtain ⟨hx, hlt, hL⟩ := h
    intro y hy
    rcases List.mem_cons.1 hy with rfl | hy
    · exact ⟨hx.ge, hlt, hL.le⟩
    · obtain ⟨h1, h2, h3⟩ := ih hL y hy
      exact ⟨(hx ▸ hlt.le).trans h1, h2, h3⟩

theorem Tiles.exists_mem {a b x : α} {L : List β} (h : Tiles lo hi a b L) (ha : a ≤ x)
    (hb : x < b) : ∃ y ∈ L, lo y ≤ x ∧ x < hi y := by
  induction L generalizing a with
  | nil => exact absurd ((tiles_nil.1 h) ▸ ha) (not_le.2 hb)
  | cons y L ih =>
    obtain ⟨hy, -, hL⟩ := h
    by_cases hxy : x < hi y
    · exact ⟨y, List.mem_cons_self, hy.le.trans ha, hxy⟩
    · obtain ⟨z, hz, hzx⟩ := ih hL (not_lt.1 hxy)
      exact ⟨z, List.mem_cons_of_mem y hz, hzx⟩

theorem Tiles.of_append {a b : α} {L M : List β} (h : Tiles lo hi a b (L ++ M)) :
    ∃ c, Tiles lo hi a c L ∧ Tiles lo hi c b M := by
  induction L generalizing a with
  | nil => exact ⟨a, rfl, h⟩
  | cons x L ih =>
    obtain ⟨hx, hlt, hL⟩ := h
    obtain ⟨c, hc, hM⟩ := ih hL
    exact ⟨c, ⟨hx, hlt, hc⟩, hM⟩

theorem Tiles.hi_le_of_mem {a b : α} {A B : List β} {y : β} (h : Tiles lo hi a b (A ++ y :: B)) :
    ∀ z ∈ B, hi y ≤ lo z := by
  obtain ⟨c, -, hy⟩ := h.of_append
  exact fun z hz => (hy.2.2.mem_bounds z hz).1

theorem tiles_map {γ : Type} (f : γ → β) {a b : α} {L : List γ} :
    Tiles lo hi a b (L.map f) ↔ Tiles (lo ∘ f) (hi ∘ f) a b L := by
  induction L generalizing a with
  | nil => rfl
  | cons x L ih => simp [ih]

@[simp] theorem covered_nil : covered lo hi ([] : List β) = ∅ := by
  simp [covered]

@[simp] theorem covered_cons (x : β) (L : List β) :
    covered lo hi (x :: L) = Set.Ico (lo x) (hi x) ∪ covered lo hi L := by
  ext a
  simp [covered]

@[simp] theorem covered_append (L M : List β) :
    covered lo hi (L ++ M) = covered lo hi L ∪ covered lo hi M := by
  ext a
  simp only [covered, List.mem_append, Set.mem_union, Set.mem_ofPred_eq]
  constructor
  · rintro ⟨x, hx | hx, h⟩
    · exact .inl ⟨x, hx, h⟩
    · exact .inr ⟨x, hx, h⟩
  · rintro (⟨x, hx, h⟩ | ⟨x, hx, h⟩)
    · exact ⟨x, .inl hx, h⟩
    · exact ⟨x, .inr hx, h⟩

theorem covered_congr {lo' hi' : β → α} {L : List β}
    (h : ∀ x ∈ L, lo' x = lo x ∧ hi' x = hi x) : covered lo' hi' L = covered lo hi L := by
  ext a
  simp only [covered, Set.mem_ofPred_eq]
  constructor
  · rintro ⟨x, hx, hle, hlt⟩
    obtain ⟨hl, hh⟩ := h x hx
    exact ⟨x, hx, hl ▸ hle, hh ▸ hlt⟩
  · rintro ⟨x, hx, hle, hlt⟩
    obtain ⟨hl, hh⟩ := h x hx
    exact ⟨x, hx, hl.symm ▸ hle, hh.symm ▸ hlt⟩

/-- An interval widened by the intervals of a list that each start inside it covers
    the union of them all. -/
theorem Ico_foldl_max {D : List β} {a b : α} (hab : a ≤ b)
    (hD : ∀ d ∈ D, a ≤ lo d ∧ lo d ≤ b ∧ lo d ≤ hi d) :
    Set.Ico a (D.foldl (fun c d => max c (hi d)) b) = Set.Ico a b ∪ covered lo hi D := by
  induction D generalizing b with
  | nil => simp
  | cons d D ih =>
    obtain ⟨had, hdb, hdd⟩ := hD d List.mem_cons_self
    have hstep : Set.Ico a (max b (hi d)) = Set.Ico a b ∪ Set.Ico (lo d) (hi d) := by
      rw [Set.Ico_union_Ico' hdb (had.trans hdd), min_eq_left had]
    have hD' : ∀ d' ∈ D, a ≤ lo d' ∧ lo d' ≤ max b (hi d) ∧ lo d' ≤ hi d' := by
      intro d' hd'
      obtain ⟨h₁, h₂, h₃⟩ := hD d' (List.mem_cons_of_mem d hd')
      exact ⟨h₁, h₂.trans (le_max_left _ _), h₃⟩
    rw [List.foldl_cons, ih (hab.trans (le_max_left _ _)) hD', hstep, covered_cons, Set.union_assoc]

theorem chain_congr {lo' hi' : β → α} {L : List β} (h : ∀ x ∈ L, lo' x = lo x ∧ hi' x = hi x) :
    Chain lo' hi' L ↔ Chain lo hi L :=
  List.Pairwise.iff_of_mem fun {x y} hx hy => by rw [(h x hx).2, (h y hy).1]

theorem apart_congr {lo' hi' : β → α} {L : List β} (h : ∀ x ∈ L, lo' x = lo x ∧ hi' x = hi x) :
    Apart lo' hi' L ↔ Apart lo hi L :=
  List.Pairwise.iff_of_mem fun {x y} hx hy => by rw [(h x hx).2, (h y hy).1]

theorem Apart.chain {L : List β} (h : Apart lo hi L) : Chain lo hi L :=
  h.imp le_of_lt

theorem Chain.lo_lt {L : List β} (h : Chain lo hi L) (hne : ∀ x ∈ L, lo x < hi x) :
    L.Pairwise fun x y => lo x < lo y :=
  List.Pairwise.imp_of_mem (fun {x _} hx _ hxy => lt_of_lt_of_le (hne x hx) hxy) h

/-- Non-empty intervals form a chain exactly when they increase in `lo` and no two
    of them meet. -/
theorem chain_iff {L : List β} (hne : ∀ x ∈ L, lo x < hi x) :
    Chain lo hi L ↔ (L.Pairwise fun x y => lo x < lo y) ∧
      L.Pairwise fun x y => Disjoint (Set.Ico (lo x) (hi x)) (Set.Ico (lo y) (hi y)) := by
  constructor
  · intro h
    refine ⟨h.lo_lt hne, h.imp fun {x y} hxy => Set.disjoint_left.2 fun a ha hb => ?_⟩
    exact absurd (lt_of_lt_of_le ha.2 hxy) (not_lt.2 hb.1)
  · rintro ⟨hlo, hdis⟩
    refine List.Pairwise.imp_of_mem (fun {x y} _ hy ⟨hxy, hd⟩ => ?_) (hlo.and hdis)
    -- were `lo y` inside the interval of `x`, the two intervals would share it
    by_contra hlt
    have hx : lo y ∈ Set.Ico (lo x) (hi x) := ⟨hxy.le, lt_of_not_ge hlt⟩
    have hy : lo y ∈ Set.Ico (lo y) (hi y) := ⟨le_rfl, hne y hy⟩
    exact Set.disjoint_left.1 hd hx hy

theorem covered_eq_of_mem_iff {L M : List β} (h : ∀ x, x ∈ L ↔ x ∈ M) :
    covered lo hi L = covered lo hi M := by
  ext a
  simp only [covered, Set.mem_ofPred_eq, h]

/-! ## A chain split at one interval -/

section split
variable {A B : List β} {x : β}

/-- In a chain split at `x`, the intervals before `x` end at or before its start and the
    intervals after it start at or after its end. -/
theorem Chain.split (h : Chain lo hi (A ++ x :: B)) :
    (∀ a ∈ A, hi a ≤ lo x) ∧ ∀ b ∈ B, hi x ≤ lo b := by
  obtain ⟨-, hxB, hAx⟩ := List.pairwise_append.1 h
  exact ⟨fun a ha => hAx a ha x List.mem_cons_self, (List.pairwise_cons.1 hxB).1⟩

/-- Split a chain before the first interval `x` that ends after `p`: no other interval
    holds `p`. -/
theorem Chain.eq_of_mem_Ico (h : Chain lo hi (A ++ x :: B)) {p : α} (hA : ∀ a ∈ A, hi a ≤ p)
    (hx : p < hi x) {y : β} (hy : y ∈ A ++ x :: B) (hp : p ∈ Set.Ico (lo y) (hi y)) : y = x := by
  rcases List.mem_append.1 hy with hy | hy
  · exact absurd (hA y hy) (not_le.2 hp.2)
  rcases List.mem_cons.1 hy with rfl | hy
  · rfl
  · exact absurd ((h.split.2 y hy).trans hp.1) (not_le.2 hx)

/-- Split a chain before the first interval `x` that ends after `p`: a non-empty interval
    from `p` that misses `x` misses every interval of the chain. -/
theorem Chain.disjoint_of_head (h : Chain lo hi (A ++ x :: B)) (hx₀ : lo x < hi x) {p q : α}
    (hpq : p < q) (hA : ∀ a ∈ A, hi a ≤ p) (hx : p < hi x)
    (hd : Disjoint (Set.Ico p q) (Set.Ico (lo x) (hi x))) :
    ∀ y ∈ A ++ x :: B, Disjoint (Set.Ico p q) (Set.Ico (lo y) (hi y)) := by
  -- `[p, q)` ends at or before `x` starts, else both hold `max p (lo x)`
  have hqx : q ≤ lo x := by
    by_contra hlt
    have h₁ : max p (lo x) ∈ Set.Ico p q := ⟨le_max_left _ _, max_lt hpq (lt_of_not_ge hlt)⟩
    have h₂ : max p (lo x) ∈ Set.Ico (lo x) (hi x) := ⟨le_max_right _ _, max_lt hx hx₀⟩
    exact Set.disjoint_left.1 hd h₁ h₂
  intro y hy
  refine Set.disjoint_left.2 fun a ha hya => ?_
  rcases List.mem_append.1 hy with hy | hy
  · exact absurd (lt_of_lt_of_le hya.2 (hA y hy)) (not_lt.2 ha.1)
  rcases List.mem_cons.1 hy with rfl | hy
  · exact absurd (lt_of_lt_of_le ha.2 hqx) (not_lt.2 hya.1)
  · have hqy : q ≤ lo y := hqx.trans (hx₀.le.trans (h.split.2 y hy))
    exact absurd (lt_of_lt_of_le ha.2 hqy) (not_lt.2 hya.1)

/-- Taking `[p, q)` out of what a chain covers, for `[p, q)` inside the interval of `x`,
    cuts that interval in two and leaves the others. -/
theorem Chain.covered_diff (h : Chain lo hi (A ++ x :: B)) {p q : α} (hp : lo x ≤ p) (hpq : p ≤ q)
    (hq : q ≤ hi x) :
    covered lo hi (A ++ x :: B) \ Set.Ico p q =
      covered lo hi A ∪ (Set.Ico (lo x) p ∪ Set.Ico q (hi x) ∪ covered lo hi B) := by
  have hA : ∀ a ∈ covered lo hi A, a < p := by
    rintro a ⟨y, hy, -, hay⟩
    exact lt_of_lt_of_le (lt_of_lt_of_le hay (h.split.1 y hy)) hp
  have hB : ∀ a ∈ covered lo hi B, q ≤ a := by
    rintro a ⟨y, hy, hya, -⟩
    exact hq.trans ((h.split.2 y hy).trans hya)
  rw [covered_append, covered_cons]
  ext a
  simp only [Set.mem_sdiff, Set.mem_union, Set.mem_Ico, not_and_or, not_le, not_lt]
  constructor
  · rintro ⟨ha | ⟨hxa, hax⟩ | ha, hap | hqa⟩
    · exact .inl ha
    · exact .inl ha
    · exact .inr (.inl (.inl ⟨hxa, hap⟩))
    · exact .inr (.inl (.inr ⟨hqa, hax⟩))
    · exact .inr (.inr ha)
    · exact .inr (.inr ha)
  · rintro (ha | (⟨hxa, hap⟩ | ⟨hqa, hax⟩) | ha)
    · exact ⟨.inl ha, .inl (hA a ha)⟩
    · exact ⟨.inr (.inl ⟨hxa, lt_of_lt_of_le hap (hpq.trans hq)⟩), .inl hap⟩
    · exact ⟨.inr (.inl ⟨hp.trans (hpq.trans hqa), hax⟩), .inr hqa⟩
    · exact ⟨.inr (.inr ha), .inr (hB a ha)⟩

end split

theorem Chain.lt_hi_of_mem_dropWhile {L : List β} (h : Chain lo hi L) (hne : ∀ x ∈ L, lo x < hi x)
    (p : α) : ∀ y ∈ L.dropWhile (fun y => decide (hi y ≤ p)), p < hi y := by
  induction L with
  | nil => simp
  | cons x L ih =>
    have hL := (List.pairwise_cons.1 h).2
    by_cases hx : hi x ≤ p
    · rw [List.dropWhile_cons_of_pos (by simpa using hx)]
      exact ih hL fun y hy => hne y (List.mem_cons_of_mem x hy)
    · rw [List.dropWhile_cons_of_neg (by simpa using hx)]
      intro y hy
      rcases List.mem_cons.1 hy with rfl | hy
      · exact lt_of_not_ge hx
      · -- later intervals start at or after the end of `x`
        exact lt_of_lt_of_le (lt_of_not_ge hx)
          (((List.pairwise_cons.1 h).1 y hy).trans (hne y (List.mem_cons_of_mem x hy)).le)

section fold
variable {γ : Type} [LinearOrder γ] (f : β → γ)

theorem le_foldl_max (D : List β) (b : γ) : b ≤ D.foldl (fun x d => max x (f d)) b := by
  induction D generalizing b with
  | nil => exact le_rfl
  | cons d D ih => exact le_trans (le_max_left b (f d)) (ih _)

theorem foldl_max_le_iff {D : List β} {b c : γ} :
    D.foldl (fun x d => max x (f d)) b ≤ c ↔ b ≤ c ∧ ∀ d ∈ D, f d ≤ c := by
  induction D generalizing b with
  | nil => simp
  | cons d D ih => simp [ih, and_assoc]

theorem foldl_max_lt_iff {D : List β} {b c : γ} :
    D.foldl (fun x d => max x (f d)) b < c ↔ b < c ∧ ∀ d ∈ D, f d < c := by
  induction D generalizing b with
  | nil => simp
  | cons d D ih => simp [ih, and_assoc]

end fold


/-! ## First fit in a tiling -/

section firstFit
variable {lo hi : β → ℕ} {isGap : β → Bool} {S : Set ℕ} {a b n : ℕ} {L : List β}

/-- `n` points from `x` on lie inside `[a, b)` and outside `S`. -/
def Fits (S : Set ℕ) (a b n x : ℕ) : Prop :=
  Set.Ico x (x + n) ⊆ Set.Ico a b ∧ Disjoint (Set.Ico x (x + n)) S

/-- A tiling of `[a, b)` into pieces inside `S` and gaps that miss `S`, each gap ending at `b`
    or at a point of `S`, so that no gap can be made longer. -/
structure GapTiling (lo hi : β → ℕ) (isGap : β → Bool) (S : Set ℕ) (a b : ℕ) (L : List β) :
    Prop where
  tiles : Tiles lo hi a b L
  covered : ∀ y ∈ L, isGap y = false → Set.Ico (lo y) (hi y) ⊆ S
  gap : ∀ y ∈ L, isGap y = true → Disjoint (Set.Ico (lo y) (hi y)) S
  gap_end : ∀ y ∈ L, isGap y = true → hi y = b ∨ hi y ∈ S

/-- A gap of at least `n` points: what first fit looks for. -/
def bigGap (lo hi : β → ℕ) (isGap : β → Bool) (n : ℕ) (y : β) : Bool :=
  isGap y && decide (n ≤ hi y - lo y)

theorem GapTiling.fits_lo (hT : GapTiling lo hi isGap S a b L) {y : β} (hy : y ∈ L)
    (hg : bigGap lo hi isGap n y = true) : Fits S a b n (lo y) := by
  simp only [bigGap, Bool.and_eq_true, decide_eq_true_eq] at hg
  obtain ⟨h1, h2, h3⟩ := hT.tiles.mem_bounds y hy
  have hsub : Set.Ico (lo y) (lo y + n) ⊆ Set.Ico (lo y) (hi y) :=
    Set.Ico_subset_Ico_right (by omega)
  exact ⟨hsub.trans (Set.Ico_subset_Ico h1 h3), (hT.gap y hy hg.1).mono_left hsub⟩

/-- Where `n > 0` points fit, they start inside a gap of at least `n` points. -/
theorem GapTiling.exists_bigGap (hT : GapTiling lo hi isGap S a b L) (hn : 0 < n) {x : ℕ}
    (hx : Fits S a b n x) : ∃ y ∈ L, bigGap lo hi isGap n y = true ∧ lo y ≤ x := by
  obtain ⟨hsub, hdis⟩ := hx
  have hxx : x ∈ Set.Ico x (x + n) := ⟨le_rfl, by omega⟩
  -- `x` lies in a piece, and not in one inside `S`
  obtain ⟨y, hy, hyx, hxy⟩ := hT.tiles.exists_mem (hsub hxx).1 (hsub hxx).2
  have hg : isGap y = true := by
    by_contra hng
    exact Set.disjoint_left.1 hdis hxx (hT.covered y hy (by simpa using hng) ⟨hyx, hxy⟩)
  -- the gap reaches `x + n`: it ends at `b` or in `S`, and `[x, x + n)` holds neither
  have hend : x + n ≤ hi y := by
    by_contra hlt
    have hmem : hi y ∈ Set.Ico x (x + n) := ⟨by omega, by omega⟩
    rcases hT.gap_end y hy hg with he | he
    · exact absurd (hsub hmem).2 (by omega)
    · exact Set.disjoint_left.1 hdis hmem he
  refine ⟨y, hy, ?_, hyx⟩
  simp only [bigGap, hg, Bool.true_and, decide_eq_true_eq]
  omega

/-- First fit: the first gap of at least `n` points starts at the least point where `n` points
    fit. -/
theorem GapTiling.isLeast_of_find (hT : GapTiling lo hi isGap S a b L) (hn : 0 < n) {y : β}
    (hf : L.find? (bigGap lo hi isGap n) = some y) : IsLeast {x | Fits S a b n x} (lo y) := by
  obtain ⟨hy, A, B, hL, hA⟩ := List.find?_eq_some_iff_append.1 hf
  have hyL : y ∈ L := by simp [hL]
  refine ⟨hT.fits_lo hyL hy, fun x hx => ?_⟩
  obtain ⟨z, hz, hgz, hzx⟩ := hT.exists_bigGap hn hx
  -- `z` is no gap before `y`: it is `y`, or comes after it
  rw [hL, List.mem_append, List.mem_cons] at hz
  rcases hz with hz | rfl | hz
  · simpa [hgz] using hA z hz
  · exact hzx
  · have hyz := (hL ▸ hT.tiles).hi_le_of_mem z hz
    have hy₀ := (hT.tiles.mem_bounds y hyL).2.1
    omega

theorem GapTiling.not_fits_of_find (hT : GapTiling lo hi isGap S a b L) (hn : 0 < n)
    (hf : L.find? (bigGap lo hi isGap n) = none) (x : ℕ) : ¬Fits S a b n x := by
  intro hx
  obtain ⟨y, hy, hg, -⟩ := hT.exists_bigGap hn hx
  exact List.find?_eq_none.1 hf y hy hg

end firstFit

end Nanos.Intervals
