import Nanos.RbtreeShape

set_option autoImplicit false

/-!
# Insertion keeps the left-leaning shape

Inserting below a black node yields a left-leaning tree of the same black
height; below a red node it may also yield a red root with a red left child,
which the `fix_up` of the parent repairs. The root is painted black at the end.
-/

namespace Nanos.RbtreeInsert
open ColorTree CTree RbtreeShape
open Rbtree (compareNodes)

variable {ν κ : Type} [LinearOrder κ]

/-- A red root with a red left child over three black subtrees of black height `m`. -/
def RedRed (m : ℕ) (t : CTree ν) : Prop :=
  ∃ a x b y c, t = node .red (node .red a x b) y c ∧ a.isRed = false ∧ b.isRed = false ∧
    c.isRed = false ∧ LL m a ∧ LL m b ∧ LL m c

/-- What inserting into `t` of black height `m` may produce. -/
def InsPost (m : ℕ) (t t' : CTree ν) : Prop := LL m t' ∨ (t.isRed = true ∧ RedRed m t')

theorem LL_zero_black {t : CTree ν} (h : LL 0 t) (hb : t.isRed = false) : t = nil := by
  rcases t with _ | ⟨_ | _, l, x, r⟩
  · rfl
  · simp at h
  · simp at hb

theorem fixUp_LL {m : ℕ} {t : CTree ν} (h : LL m t) : fixUp t = some t := by
  rcases t with _ | ⟨_ | _, l, x, r⟩
  · rfl
  · cases m with
    | zero => simp at h
    | succ m =>
      obtain ⟨hr, hl, -⟩ := (LL_black_succ m l x r).1 h
      rcases l with _ | ⟨_ | _, a, y, b⟩
      · simp [fixUp, hr]
      · simp [fixUp, hr]
      · obtain ⟨ha, -, -⟩ := (LL_red m a y b).1 hl
        simp [fixUp, hr, ha]
  · obtain ⟨hl, hr, -⟩ := (LL_red m l x r).1 h
    simp [fixUp, hl, hr]

theorem fixUp_ins_black_left {m : ℕ} {l l' r : CTree ν} {x : ν}
    (ht : LL (m + 1) (node .black l x r)) (hl : InsPost m l l') :
    ∃ t', fixUp (node .black l' x r) = some t' ∧ LL (m + 1) t' := by
  obtain ⟨hr, -, hlr⟩ := (LL_black_succ m l x r).1 ht
  rcases hl with hl | ⟨-, a, y, b, z, c, rfl, ha, hb, hc, hla, hlb, hlc⟩
  · rcases l' with _ | ⟨_ | _, a, y, b⟩
    · simp [fixUp, hr, hlr, hl]
    · simp [fixUp, hr, hlr, hl]
    · obtain ⟨ha, hb, hla, hlb⟩ := (LL_red m a y b).1 hl
      simp [fixUp, hr, ha, hb, hla, hlb, hlr]
  · simp [fixUp, rotate, colorFlip, Color.flip, hb, hr, hla, hlb, hlc, hlr]

theorem fixUp_ins_black_right {m : ℕ} {l r r' : CTree ν} {x : ν}
    (ht : LL (m + 1) (node .black l x r)) (hr : InsPost m r r') :
    ∃ t', fixUp (node .black l x r') = some t' ∧ LL (m + 1) t' := by
  obtain ⟨hrb, hll, -⟩ := (LL_black_succ m l x r).1 ht
  have hr' : LL m r' := by
    rcases hr with hr | ⟨hred, -⟩
    · exact hr
    · simp [hrb] at hred
  cases hred : r'.isRed with
  | false =>
    have h' : LL (m + 1) (node .black l x r') := (LL_black_succ m l x r').2 ⟨hred, hll, hr'⟩
    exact ⟨_, fixUp_LL h', h'⟩
  | true =>
    rcases r' with _ | ⟨_ | _, a, y, b⟩
    · simp at hred
    · simp at hred
    obtain ⟨ha, hb, hla, hlb⟩ := (LL_red m a y b).1 hr'
    rcases l with _ | ⟨_ | _, c, z, d⟩
    · simp [fixUp, rotate, ha, hb, hla, hlb, hll]
    · simp [fixUp, rotate, ha, hb, hla, hlb, hll]
    · obtain ⟨hc, hd, hlc, hld⟩ := (LL_red m c z d).1 hll
      simp [fixUp, colorFlip, Color.flip, hb, hc, hd, hla, hlb, hlc, hld]

theorem fixUp_ins_red_left {m : ℕ} {l l' r : CTree ν} {x : ν}
    (ht : LL m (node .red l x r)) (hl : InsPost m l l') :
    ∃ t', fixUp (node .red l' x r) = some t' ∧ (LL m t' ∨ RedRed m t') := by
  obtain ⟨hlb, hrb, -, hlr⟩ := (LL_red m l x r).1 ht
  have hl' : LL m l' := by
    rcases hl with hl | ⟨hred, -⟩
    · exact hl
    · simp [hlb] at hred
  rcases l' with _ | ⟨_ | _, a, y, b⟩
  · simp [fixUp, hrb, hlr, hl']
  · simp [fixUp, hrb, hlr, hl']
  · obtain ⟨ha, hb, hla, hlb'⟩ := (LL_red m a y b).1 hl'
    refine ⟨_, by simp [fixUp, hrb, ha], .inr ⟨a, y, b, x, r, rfl, ha, hb, hrb, hla, hlb', hlr⟩⟩

theorem fixUp_ins_red_right {m : ℕ} {l r r' : CTree ν} {x : ν}
    (ht : LL m (node .red l x r)) (hr : InsPost m r r') :
    ∃ t', fixUp (node .red l x r') = some t' ∧ (LL m t' ∨ RedRed m t') := by
  obtain ⟨hlb, hrb, hll, -⟩ := (LL_red m l x r).1 ht
  have hr' : LL m r' := by
    rcases hr with hr | ⟨hred, -⟩
    · exact hr
    · simp [hrb] at hred
  rcases r' with _ | ⟨_ | _, a, y, b⟩
  · simp [fixUp, hlb, hll, hr']
  · simp [fixUp, hlb, hll, hr']
  · obtain ⟨ha, hb, hla, hlb'⟩ := (LL_red m a y b).1 hr'
    refine ⟨_, by simp [fixUp, rotate, hlb, hb], .inr ⟨l, x, a, y, b, rfl, hlb, ha, hb, hll,
      hla, hlb'⟩⟩

section
variable (key : ν → κ) (n : ν)

/-- The subtree a new node descends into: a fresh red leaf takes the place of
    `nil`, else insertion recurses. -/
theorem ins_child {s : CTree ν} {m : ℕ} (hs : LL m s)
    (ih : ∀ {m : ℕ}, LL m s → s ≠ nil →
      ∃ s' res, insertNodeInternal key n s = some (s', res) ∧ InsPost m s s') :
    ∃ s' res, (if s.isNil then some (node .red nil n nil, true)
      else insertNodeInternal key n s) = some (s', res) ∧ InsPost m s s' := by
  cases s with
  | nil =>
    have hm : m = 0 := (LL_nil m).1 hs
    subst hm
    exact ⟨_, _, rfl, .inl (by simp)⟩
  | node c l x r =>
    simpa using ih hs (by simp)

theorem insertNodeInternal_lt {c : Color} {l r l' : CTree ν} {x : ν} {res : Bool}
    (hcmp : compareNodes key n x = .lt)
    (hins : (if l.isNil then some (node .red nil n nil, true)
      else insertNodeInternal key n l) = some (l', res)) :
    insertNodeInternal key n (node c l x r) = (fixUp (node c l' x r)).bind fun t => some (t, res) := by
  rw [insertNodeInternal]
  cases hnil : l.isNil <;> simp_all

theorem insertNodeInternal_gt {c : Color} {l r r' : CTree ν} {x : ν} {res : Bool}
    (hcmp : compareNodes key n x = .gt)
    (hins : (if r.isNil then some (node .red nil n nil, true)
      else insertNodeInternal key n r) = some (r', res)) :
    insertNodeInternal key n (node c l x r) = (fixUp (node c l x r')).bind fun t => some (t, res) := by
  have hne : compareNodes key n x ≠ .lt := by rw [hcmp]; decide
  rw [insertNodeInternal, if_neg hne, if_pos hcmp]
  cases hnil : r.isNil <;> simp_all

theorem insertNodeInternal_eq {c : Color} {l r : CTree ν} {x : ν}
    (hcmp : compareNodes key n x = .eq) :
    insertNodeInternal key n (node c l x r) = (fixUp (node c l x r)).bind fun t => some (t, false) := by
  rw [insertNodeInternal]
  simp [hcmp]

theorem LL_children {m : ℕ} {c : Color} {l r : CTree ν} {x : ν} (ht : LL m (node c l x r)) :
    ∃ ml, LL ml l ∧ LL ml r ∧ (c = .black → m = ml + 1) ∧ (c = .red → m = ml) := by
  cases c with
  | red =>
    obtain ⟨-, -, hl, hr⟩ := (LL_red m l x r).1 ht
    exact ⟨m, hl, hr, by simp, by simp⟩
  | black =>
    cases m with
    | zero => simp at ht
    | succ m =>
      obtain ⟨-, hl, hr⟩ := (LL_black_succ m l x r).1 ht
      exact ⟨m, hl, hr, by simp, by simp⟩

theorem insertNodeInternal_shape :
    ∀ {t : CTree ν} {m : ℕ}, LL m t → t ≠ nil →
      ∃ t' res, insertNodeInternal key n t = some (t', res) ∧ InsPost m t t' := by
  intro t
  induction t with
  | nil => intro m _ h; exact absurd rfl h
  | node c l x r ihl ihr =>
    intro m ht _
    obtain ⟨ml, hll, hlr, hcb, hcr⟩ := LL_children ht
    rcases hcmp : compareNodes key n x with _ | _ | _
    · -- the new node goes left
      obtain ⟨l', res, hins, hpost⟩ := ins_child key n hll ihl
      rw [insertNodeInternal_lt key n hcmp hins]
      cases c with
      | black =>
        obtain rfl := hcb rfl
        obtain ⟨t', hfix, ht'⟩ := fixUp_ins_black_left ht hpost
        exact ⟨t', res, by simp [hfix], .inl ht'⟩
      | red =>
        obtain rfl := hcr rfl
        obtain ⟨t', hfix, ht'⟩ := fixUp_ins_red_left ht hpost
        refine ⟨t', res, by simp [hfix], ?_⟩
        rcases ht' with ht' | ht'
        · exact .inl ht'
        · exact .inr ⟨by simp, ht'⟩
    · -- an equal key: nothing is inserted and `fix_up` changes nothing
      rw [insertNodeInternal_eq key n hcmp, fixUp_LL ht]
      exact ⟨_, false, rfl, .inl ht⟩
    · -- the new node goes right
      obtain ⟨r', res, hins, hpost⟩ := ins_child key n hlr ihr
      rw [insertNodeInternal_gt key n hcmp hins]
      cases c with
      | black =>
        obtain rfl := hcb rfl
        obtain ⟨t', hfix, ht'⟩ := fixUp_ins_black_right ht hpost
        exact ⟨t', res, by simp [hfix], .inl ht'⟩
      | red =>
        obtain rfl := hcr rfl
        obtain ⟨t', hfix, ht'⟩ := fixUp_ins_red_right ht hpost
        refine ⟨t', res, by simp [hfix], ?_⟩
        rcases ht' with ht' | ht'
        · exact .inl ht'
        · exact .inr ⟨by simp, ht'⟩

/-- A left-leaning tree with a black root stays one after an insertion. -/
theorem rbtreeInsertNode_shape {t : CTree ν} {m : ℕ} (ht : LL m t) (hb : t.isRed = false) :
    ∃ t' res m', rbtreeInsertNode key t n = some (t', res) ∧ LL m' t' ∧ t'.isRed = false := by
  cases t with
  | nil => exact ⟨_, true, 1, rfl, by simp, rfl⟩
  | node c l x r =>
    obtain ⟨t', res, hins, hpost⟩ := insertNodeInternal_shape key n ht (by simp)
    have ht' : LL m t' := by
      rcases hpost with h | ⟨h, -⟩
      · exact h
      · simp [hb] at h
    refine ⟨t'.blacken, res, ?_⟩
    have hbl : t'.blacken.isRed = false := by cases t' <;> rfl
    rcases LL_blacken ht' with h | h
    · exact ⟨m, by simp [rbtreeInsertNode, hins], h, hbl⟩
    · exact ⟨m + 1, by simp [rbtreeInsertNode, hins], h, hbl⟩

/-! ## Where the new node goes -/

/-- `t'` and `res` are what inserting `n` into `t` has to give: `n` lands between
    the smaller and the larger keys when its key is new, and nothing changes
    otherwise. -/
def Inserted (t t' : CTree ν) (res : Bool) : Prop :=
  (res = true ↔ ∀ y ∈ t.toList, key y ≠ key n) ∧
  (res = true → t'.toList =
    t.toList.filter (fun y => key y < key n) ++ n :: t.toList.filter (fun y => key n < key y)) ∧
  (res = false → t' = t)

theorem filter_of_lt_root {L R : List ν} {x : ν}
    (hs : (L ++ x :: R).Pairwise fun a b => key a < key b) (h : key n < key x) :
    (L ++ x :: R).filter (fun y => key y < key n) = L.filter (fun y => key y < key n) ∧
      (L ++ x :: R).filter (fun y => key n < key y) = L.filter (fun y => key n < key y) ++ x :: R := by
  -- everything from the root on is above the key of `n`
  have hR : ∀ y ∈ x :: R, key n < key y := by
    intro y hy
    rcases List.mem_cons.1 hy with rfl | hy
    · exact h
    · exact h.trans ((ordered_split hs).2 y hy)
  refine ⟨?_, ?_⟩
  · rw [List.filter_append, (List.filter_eq_nil_iff (l := x :: R)).2 fun y hy => by
      simpa using (hR y hy).le, List.append_nil]
  · rw [List.filter_append, (List.filter_eq_self (l := x :: R)).2 fun y hy => by simpa using hR y hy]

theorem filter_of_root_lt {L R : List ν} {x : ν}
    (hs : (L ++ x :: R).Pairwise fun a b => key a < key b) (h : key x < key n) :
    (L ++ x :: R).filter (fun y => key y < key n) = L ++ x :: R.filter (fun y => key y < key n) ∧
      (L ++ x :: R).filter (fun y => key n < key y) = R.filter (fun y => key n < key y) := by
  -- everything up to the root is below the key of `n`
  have hL : ∀ y ∈ L, key y < key n := fun y hy => ((ordered_split hs).1 y hy).trans h
  refine ⟨?_, ?_⟩
  · rw [List.filter_append, (List.filter_eq_self (l := L)).2 fun y hy => by simpa using hL y hy,
      List.filter_cons_of_pos (by simpa using h)]
  · rw [List.filter_append, (List.filter_eq_nil_iff (l := L)).2 fun y hy => by
      simpa using (hL y hy).le, List.filter_cons_of_neg (by simpa using h.le), List.nil_append]

theorem inserted_nil : Inserted key n nil (node .red nil n nil) true :=
  ⟨by simp, fun _ => by simp, by simp⟩

theorem inserted_node_left {c : Color} {l l' r t' : CTree ν} {x : ν} {res : Bool}
    (hs : Ordered key (node c l x r)) (hlt : key n < key x) (hl : Inserted key n l l' res)
    (hf : fixUp (node c l' x r) = some t') (hfix : fixUp (node c l x r) = some (node c l x r)) :
    Inserted key n (node c l x r) t' res := by
  obtain ⟨hres, hlist, hsame⟩ := hl
  have hxr := (ordered_split hs).2
  obtain ⟨hlo, hgt⟩ := filter_of_lt_root key n hs hlt
  refine ⟨?_, fun hr => ?_, fun hr => ?_⟩
  · rw [hres, toList_node]
    constructor
    · intro h y hy
      rcases List.mem_append.1 hy with hy | hy
      · exact h y hy
      · rcases List.mem_cons.1 hy with rfl | hy
        · exact hlt.ne'
        · exact (hlt.trans (hxr y hy)).ne'
    · exact fun h y hy => h y (List.mem_append_left _ hy)
  · rw [fixUp_toList hf, toList_node, toList_node, hlo, hgt, hlist hr]
    simp
  · rw [hsame hr] at hf
    rw [hfix] at hf
    exact (Option.some.inj hf).symm

theorem inserted_node_right {c : Color} {l r r' t' : CTree ν} {x : ν} {res : Bool}
    (hs : Ordered key (node c l x r)) (hgt : key x < key n) (hr : Inserted key n r r' res)
    (hf : fixUp (node c l x r') = some t') (hfix : fixUp (node c l x r) = some (node c l x r)) :
    Inserted key n (node c l x r) t' res := by
  obtain ⟨hres, hlist, hsame⟩ := hr
  have hlx := (ordered_split hs).1
  obtain ⟨hlo, hhi⟩ := filter_of_root_lt key n hs hgt
  refine ⟨?_, fun h => ?_, fun h => ?_⟩
  · rw [hres, toList_node]
    constructor
    · intro h y hy
      rcases List.mem_append.1 hy with hy | hy
      · exact ((hlx y hy).trans hgt).ne
      · rcases List.mem_cons.1 hy with rfl | hy
        · exact hgt.ne
        · exact h y hy
    · exact fun h y hy => h y (List.mem_append_right _ (List.mem_cons_of_mem _ hy))
  · rw [fixUp_toList hf, toList_node, toList_node, hlo, hhi, hlist h]
    simp
  · rw [hsame h] at hf
    rw [hfix] at hf
    exact (Option.some.inj hf).symm

/-- `insert_node_internal` puts the new node in key order and reports whether
    its key was new. -/
theorem insertNodeInternal_order :
    ∀ {t : CTree ν} {m : ℕ}, LL m t → Ordered key t → ∀ {t' : CTree ν} {res : Bool},
      insertNodeInternal key n t = some (t', res) → Inserted key n t t' res := by
  intro t
  induction t with
  | nil => intro m _ _ t' res h; simp [insertNodeInternal] at h
  | node c l x r ihl ihr =>
    intro m ht hs t' res h
    obtain ⟨ml, hll, hlr, -, -⟩ := LL_children ht
    obtain ⟨hsl, hsr⟩ := hs.children
    have hfix := fixUp_LL ht
    -- the result of the child's insertion, by the balance theorem
    have hchild : ∀ {s : CTree ν} {m : ℕ}, LL m s → Ordered key s → ∀ {s' res},
        (∀ {s' res}, insertNodeInternal key n s = some (s', res) → Inserted key n s s' res) →
        (if s.isNil then some (node .red nil n nil, true) else insertNodeInternal key n s) =
          some (s', res) → Inserted key n s s' res := by
      intro s m hs _ s' res ih hins
      cases s with
      | nil =>
        simp only [isNil_nil, if_true, Option.some.injEq, Prod.mk.injEq] at hins
        obtain ⟨rfl, rfl⟩ := hins
        exact inserted_nil key n
      | node c l x r => exact ih (by simpa using hins)
    rcases hcmp : compareNodes key n x with _ | _ | _
    · obtain ⟨l', res', hins, -⟩ := ins_child key n hll fun hs hne => insertNodeInternal_shape key n hs hne
      rw [insertNodeInternal_lt key n hcmp hins] at h
      obtain ⟨t₀, hf, he⟩ := Option.bind_eq_some_iff.1 h
      obtain ⟨rfl, rfl⟩ := Prod.mk.inj (Option.some.inj he)
      exact inserted_node_left key n hs (by simpa using hcmp)
        (hchild hll hsl (ihl hll hsl) hins) hf hfix
    · rw [insertNodeInternal_eq key n hcmp, hfix] at h
      obtain ⟨rfl, rfl⟩ := Prod.mk.inj (Option.some.inj h)
      refine ⟨?_, by simp, fun _ => rfl⟩
      simp only [Bool.false_eq_true, false_iff, not_forall, not_not]
      exact ⟨x, by simp, ((Rbtree.compareNodes_eq_iff key).1 hcmp).symm⟩
    · obtain ⟨r', res', hins, -⟩ := ins_child key n hlr fun hs hne => insertNodeInternal_shape key n hs hne
      rw [insertNodeInternal_gt key n hcmp hins] at h
      obtain ⟨t₀, hf, he⟩ := Option.bind_eq_some_iff.1 h
      obtain ⟨rfl, rfl⟩ := Prod.mk.inj (Option.some.inj he)
      exact inserted_node_right key n hs (by simpa using hcmp)
        (hchild hlr hsr (ihr hlr hsr) hins) hf hfix

/-- `rbtree_insert_node` puts the new node in key order and reports whether its key
    was new; a tree with a black root is left as it was when the key was there. -/
theorem rbtreeInsertNode_order {t t' : CTree ν} {m : ℕ} {res : Bool} (ht : LL m t)
    (hb : t.isRed = false) (hs : Ordered key t) (h : rbtreeInsertNode key t n = some (t', res)) :
    Inserted key n t t' res := by
  cases t with
  | nil =>
    simp only [rbtreeInsertNode, Option.pure_def] at h
    obtain ⟨rfl, rfl⟩ := h
    exact ⟨by simp, fun _ => by simp, by simp⟩
  | node c l x r =>
    obtain ⟨⟨t'', res'⟩, hins, h⟩ := Option.bind_eq_some_iff.1 h
    simp only [Option.pure_def, Option.some.injEq, Prod.mk.injEq] at h
    obtain ⟨rfl, rfl⟩ := h
    obtain ⟨hres, hlist, hsame⟩ := insertNodeInternal_order key n ht hs hins
    refine ⟨hres, fun hr => by rw [toList_blacken, hlist hr], fun hr => ?_⟩
    rw [hsame hr]
    cases c
    · rfl
    · simp at hb

end
end Nanos.RbtreeInsert
