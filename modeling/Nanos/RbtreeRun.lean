import Mathlib.Data.Finset.Insert
import Mathlib.Data.Finset.Erase
import Nanos.RbtreeRemoveRefinement
import Nanos.RbtreeInsertRefinement
import Nanos.RbtreeNav

set_option autoImplicit false

/-!
# Runs of insertions and removals

The model of an `rbtree` is the finite set of the keys it holds: inserting a node
adds its key and reports whether the key was new, removing by key deletes the key
and reports whether it was there. Along every run of `rbtree_insert_node` and
`rbtree_remove_by_key` from `init_rbtree`, each inserting a node that the tree does
not link, the heap holds an ordered left-leaning red-black tree with a black root,
whose nodes link back to their parents, whose count is its size and whose keys are
the model's; every call returns what the model returns, and a failed insertion
leaves the tree as it was.
-/

namespace Nanos.RbtreeRun
open ColorTree NodeHeap CTree RbtreeRefinement Rbtree

variable {ν κ : Type} [DecidableEq ν] [LinearOrder κ] (key : ν → κ)

def keys (t : CTree ν) : Finset κ := (t.toList.map key).toFinset

omit [DecidableEq ν] in
@[simp] theorem mem_keys {t : CTree ν} {a : κ} : a ∈ keys key t ↔ ∃ y ∈ t.toList, key y = a := by
  simp [keys]

/-- The calls of a run. `insert n` is `init_rbnode(n)` and then
    `rbtree_insert_node(t, n)`, as a caller sets up a new node. -/
inductive Op (ν : Type) where
  | insert (n : ν)
  | removeByKey (k : ν)
deriving DecidableEq, Repr

/-- The model: the key set after a call, and what the call returns. -/
def Op.absStep (S : Finset κ) : Op ν → Finset κ × Bool
  | .insert n => (Insert.insert (key n) S, decide (key n ∉ S))
  | .removeByKey k => (S.erase (key k), decide (key k ∈ S))

def step (H : Heap ν) (T : Rbtree ν) : Op ν → Option (Heap ν × Rbtree ν × Bool)
  | .insert n => rbtreeInsertNode key (initRbnode H n) T n
  | .removeByKey k => rbtreeRemoveByKey key H T k

def NotLinked (H : Heap ν) (T : Rbtree ν) (n : ν) : Prop := ∀ t, Rep H T.root t → n ∉ t.toList

def Unchanged (H H' : Heap ν) (T : Rbtree ν) : Prop :=
  ∀ t, Rep H T.root t → ∀ y ∈ t.toList, H' y = H y

/-- What `rbtree_validate` checks of the tree `t` that the heap holds, and more: the
    tree is ordered, left-leaning with a black root, its parent links are right,
    the count is its size, and its keys are `S`. -/
structure Valid (H : Heap ν) (T : Rbtree ν) (S : Finset κ) (t : CTree ν) : Prop where
  holds : Holds H none T.root t
  ordered : Ordered key t
  balanced : ∃ m, LL m t
  rootBlack : t.isRed = false
  count : T.count = t.size
  keys_eq : keys key t = S

def Inv (H : Heap ν) (T : Rbtree ν) (S : Finset κ) : Prop := ∃ t, Valid key H T S t

/-- Every call of a run returns what the model returns, the invariant holds before
    and after each, and an insertion that fails leaves the tree as it was. -/
def RunSpec : Heap ν → Rbtree ν → Finset κ → List (Op ν) → Prop
  | H, T, S, [] => Inv key H T S
  | H, T, S, op :: ops => Inv key H T S ∧ ∃ H' T' b, step key H T op = some (H', T', b) ∧
      b = (op.absStep key S).2 ∧ (∀ n, op = .insert n → b = false → T' = T ∧ Unchanged H H' T) ∧
      RunSpec H' T' (op.absStep key S).1 ops

/-- The callers' part: each inserted node is not in the tree when it is inserted. -/
def Admissible : Heap ν → Rbtree ν → List (Op ν) → Prop
  | _, _, [] => True
  | H, T, op :: ops => (∀ n, op = .insert n → NotLinked H T n) ∧
      ∀ H' T' b, step key H T op = some (H', T', b) → Admissible H' T' ops

omit [DecidableEq ν] in
theorem inv_init (H : Heap ν) : Inv key H initRbtree ∅ :=
  ⟨nil, ⟨⟨rfl, trivial⟩, List.Pairwise.nil, ⟨0, rfl⟩, rfl, rfl, by simp [keys]⟩⟩

theorem initRbnode_ne {H : Heap ν} {n y : ν} (h : y ≠ n) : initRbnode H n y = H y :=
  Heap.modify_ne _ _ h

/-- `rbtree_insert_node` after `init_rbnode` on a valid tree: the node goes in between
    the smaller and the larger keys when its key is new, the tree stays as it was when
    it is not, and no record outside the tree and the node changes. -/
theorem insert_valid {H : Heap ν} {T : Rbtree ν} {S : Finset κ} {t : CTree ν} {n : ν}
    (hv : Valid key H T S t) (hnt : n ∉ t.toList) :
    ∃ H' T' t' res, step key H T (.insert n) = some (H', T', res) ∧
      Valid key H' T' (insert (key n) S) t' ∧ RbtreeInsert.Inserted key n t t' res ∧
      (res = false → T' = T ∧ Unchanged H H' T) ∧ ∀ y ∉ t.toList, y ≠ n → H' y = H y := by
  obtain ⟨m, hm⟩ := hv.balanced
  obtain ⟨t', res, m', ht, hLL, hb⟩ := RbtreeInsert.rbtreeInsertNode_shape key n hm hv.rootBlack
  have hins := RbtreeInsert.rbtreeInsertNode_order key n hm hv.rootBlack hv.ordered ht
  obtain ⟨hres, hlist, hsame⟩ := hins
  -- `init_rbnode(n)` writes only `n`, which the tree does not link
  have hs₀ : Holds (initRbnode H n) none T.root t :=
    holds_frame hv.holds fun y hy => initRbnode_ne fun e => hnt (e ▸ hy)
  have hinit : (initRbnode H n n).parent = none ∧ (initRbnode H n n).left = none ∧
      (initRbnode H n n).right = none := by
    simp [initRbnode]
  obtain ⟨H', T', e, hs', hc', hfr⟩ :=
    RbtreeInsertRefinement.rbtreeInsertNode_sim key n hv.ordered.nodup hnt hinit hs₀ hv.count ht
  refine ⟨H', T', t', res, e, ⟨hs', ?_, ⟨m', hLL⟩, hb, ?_, ?_⟩, ⟨hres, hlist, hsame⟩, fun hr => ?_,
    fun y hy hyn => ?_⟩
  · cases res
    · rw [hsame rfl]; exact hv.ordered
    · rw [Ordered, hlist rfl]; exact pairwise_insert_between hv.ordered n
  · cases res
    · simp [hc', hv.count, hsame rfl]
    · have := length_filter_lt_add_gt (hres.1 rfl)
      simp only [hc', if_true, hv.count, size, hlist rfl, List.length_append, List.length_cons]
      omega
  · rw [← hv.keys_eq]
    cases res
    · -- the key was there: the tree and its keys stay
      obtain ⟨y, hy, hky⟩ : ∃ y ∈ t.toList, key y = key n := by simpa using hres.not.1 (by simp)
      rw [hsame rfl, Finset.insert_eq_of_mem ((mem_keys key).2 ⟨y, hy, hky⟩)]
    · ext a
      simp only [mem_keys, hlist rfl, List.mem_append, List.mem_filter, List.mem_cons,
        Finset.mem_insert, decide_eq_true_eq]
      constructor
      · rintro ⟨y, hy | rfl | hy, rfl⟩
        · exact .inr ⟨y, hy.1, rfl⟩
        · exact .inl rfl
        · exact .inr ⟨y, hy.1, rfl⟩
      · rintro (rfl | ⟨y, hy, rfl⟩)
        · exact ⟨n, .inr (.inl rfl), rfl⟩
        · rcases lt_or_gt_of_ne (hres.1 rfl y hy) with hlt | hgt
          · exact ⟨y, .inl ⟨hy, hlt⟩, rfl⟩
          · exact ⟨y, .inr (.inr ⟨hy, hgt⟩), rfl⟩
  · -- a failed insertion: the same tree at the same root, so the same records
    obtain rfl := hsame hr
    subst hr
    have hroot : T'.root = T.root := rep_ptr_eq hs'.1 hs₀.1
    have hT : T' = T := by
      cases T; cases T'
      simp_all
    refine ⟨hT, fun u hu y hy => ?_⟩
    obtain rfl := rep_unique hv.holds.1 hu
    have hy' : y ≠ n := fun e => hnt (e ▸ hy)
    rw [holds_unique hs₀.1 (hroot ▸ hs'.1) hs₀.2 hs'.2 y hy, initRbnode_ne hy']
  · -- outside the old tree and the node, nothing is written
    have hyt' : y ∉ t'.toList := by
      cases res
      · rwa [hsame rfl]
      · rw [hlist rfl]
        simp only [List.mem_append, List.mem_filter, List.mem_cons, not_or]
        exact ⟨fun h => hy h.1, hyn, fun h => hy h.1⟩
    rw [hfr y hy hyt' hyn, initRbnode_ne hyn]

/-- `rbtree_insert_node` after `init_rbnode`: the key set gains the key of `n`, the
    call reports whether it was new, and when it was not the tree stays as it was. -/
theorem insert_step {H : Heap ν} {T : Rbtree ν} {S : Finset κ} {n : ν} (hI : Inv key H T S)
    (hn : NotLinked H T n) :
    ∃ H' T' b, step key H T (.insert n) = some (H', T', b) ∧ Inv key H' T' (insert (key n) S) ∧
      b = decide (key n ∉ S) ∧ (b = false → T' = T ∧ Unchanged H H' T) := by
  obtain ⟨t, hv⟩ := hI
  obtain ⟨H', T', t', res, e, hv', ⟨hres, -, -⟩, hsame, -⟩ := insert_valid key hv (hn t hv.holds.1)
  have hkey : key n ∉ S ↔ res = true := by
    rw [hres, ← hv.keys_eq, mem_keys]
    simp
  exact ⟨H', T', res, e, ⟨t', hv'⟩, by simp [hkey], hsame⟩

/-- `rbtree_remove_by_key` on a valid tree: the nodes of the key leave the sequence,
    the call reports whether there were any, and no record outside the tree changes. -/
theorem remove_valid {H : Heap ν} {T : Rbtree ν} {S : Finset κ} {t : CTree ν} {k : ν}
    (hv : Valid key H T S t) :
    ∃ H' T' t' res, step key H T (.removeByKey k) = some (H', T', res) ∧
      Valid key H' T' (S.erase (key k)) t' ∧
      t'.toList = t.toList.filter (fun y => key y ≠ key k) ∧
      (res = true ↔ ∃ y ∈ t.toList, key y = key k) ∧ ∀ y ∉ t.toList, H' y = H y := by
  obtain ⟨m, hm⟩ := hv.balanced
  obtain ⟨t', res, ht, ⟨hlist, hres⟩, m', hLL⟩ :=
    RbtreeRemove.removeInternal_root key k hm hv.rootBlack hv.ordered
  have ht' : RbtreeShape.rbtreeRemoveByKey key t k = some (t'.blacken, res) := by
    simp [RbtreeShape.rbtreeRemoveByKey, ht]
  obtain ⟨H', T', e, hs', hc', hfr⟩ :=
    RbtreeRemoveRefinement.rbtreeRemoveByKey_sim key k hv.ordered.nodup hv.ordered hv.holds hv.count ht'
  refine ⟨H', T', t'.blacken, res, e, ⟨hs', ?_, ⟨m', hLL⟩, ?_, ?_, ?_⟩, by rw [toList_blacken, hlist],
    hres, hfr⟩
  · rw [Ordered, toList_blacken, hlist]
    exact hv.ordered.filter _
  · cases t' <;> rfl
  · have hlen := length_filter_key_ne hv.ordered (key k)
    simp only [hc', hv.count, size, toList_blacken, hlist]
    cases res
    · have hno : ¬∃ y ∈ t.toList, key y = key k := fun h => by simpa using hres.2 h
      simp only [if_neg hno] at hlen
      simp only [Bool.false_eq_true, if_false]
      omega
    · have hyes : ∃ y ∈ t.toList, key y = key k := hres.1 rfl
      simp only [if_pos hyes] at hlen
      simp only [if_true]
      omega
  · ext a
    rw [← hv.keys_eq]
    simp only [mem_keys, toList_blacken, hlist, List.mem_filter, Finset.mem_erase,
      decide_eq_true_eq, ne_eq]
    constructor
    · rintro ⟨y, ⟨hy, hne⟩, rfl⟩
      exact ⟨hne, y, hy, rfl⟩
    · rintro ⟨hne, y, hy, rfl⟩
      exact ⟨y, ⟨hy, hne⟩, rfl⟩

/-- `rbtree_remove_by_key`: the key set loses the key of `k`, and the call reports
    whether it was there. -/
theorem remove_step {H : Heap ν} {T : Rbtree ν} {S : Finset κ} {k : ν} (hI : Inv key H T S) :
    ∃ H' T' b, step key H T (.removeByKey k) = some (H', T', b) ∧ Inv key H' T' (S.erase (key k)) ∧
      b = decide (key k ∈ S) := by
  obtain ⟨t, hv⟩ := hI
  obtain ⟨H', T', t', res, e, hv', -, hres, -⟩ := remove_valid key hv
  have hkey : key k ∈ S ↔ res = true := by
    rw [hres, ← hv.keys_eq, mem_keys]
  exact ⟨H', T', res, e, ⟨t', hv'⟩, by simp [hkey]⟩

/-- The run lemma: from any state with the invariant, every admissible run satisfies
    the specification, step by step. -/
theorem runSpec_of_inv : ∀ (ops : List (Op ν)) {H : Heap ν} {T : Rbtree ν} {S : Finset κ},
    Inv key H T S → Admissible key H T ops → RunSpec key H T S ops
  | [], _, _, _, hI, _ => hI
  | .insert n :: ops, _, _, _, hI, hadm => by
    obtain ⟨H', T', b, e, hI', hb, hsame⟩ := insert_step key hI (hadm.1 n rfl)
    refine ⟨hI, H', T', b, e, by simp [Op.absStep, hb], ?_, ?_⟩
    · rintro n' hn' hb'
      exact hsame hb'
    · exact runSpec_of_inv ops hI' (hadm.2 H' T' b e)
  | .removeByKey k :: ops, _, _, _, hI, hadm => by
    obtain ⟨H', T', b, e, hI', hb⟩ := remove_step key hI
    refine ⟨hI, H', T', b, e, by simp [Op.absStep, hb], ?_, ?_⟩
    · rintro n' hn'
      cases hn'
    · exact runSpec_of_inv ops hI' (hadm.2 H' T' b e)

theorem rbtree_run_spec (H : Heap ν) (ops : List (Op ν)) (hadm : Admissible key H initRbtree ops) :
    RunSpec key H initRbtree ∅ ops :=
  runSpec_of_inv key ops (inv_init key H) hadm

/-- An insertion into the empty tree and the removal of its key. -/
theorem rbtree_run_spec_insert_remove :
    Admissible id (fun _ => ⟨none, .black, none, none⟩) initRbtree [.insert 1, .removeByKey 1] ∧
      RunSpec id (fun _ => ⟨none, .black, none, none⟩) initRbtree (∅ : Finset ℕ)
        [.insert 1, .removeByKey 1] :=
  have hadm : Admissible id (fun _ => ⟨none, .black, none, none⟩) initRbtree
      [Op.insert (1 : ℕ), .removeByKey 1] :=
    ⟨fun _ _ t ht => by rw [(rep_none_iff ht).1 rfl]; simp,
      fun _ _ _ _ => ⟨fun _ hn => (by cases hn), fun _ _ _ _ => trivial⟩⟩
  ⟨hadm, rbtree_run_spec id _ _ hadm⟩

/-! ## Reachable trees -/

/-- The states that calls of `rbtree_insert_node` (after `init_rbnode`) and
    `rbtree_remove_by_key` reach from `init_rbtree` on the heap `H₀`, each insertion with a
    node that the tree does not link. -/
inductive Reachable (H₀ : Heap ν) : Heap ν → Rbtree ν → Prop
  | init : Reachable H₀ H₀ initRbtree
  | step {H H' : Heap ν} {T T' : Rbtree ν} {op : Op ν} {b : Bool} : Reachable H₀ H T →
      (∀ n, op = .insert n → NotLinked H T n) → step key H T op = some (H', T', b) →
      Reachable H₀ H' T'

theorem Reachable.inv {H₀ H : Heap ν} {T : Rbtree ν} (h : Reachable key H₀ H T) :
    ∃ S, Inv key H T S := by
  induction h with
  | init => exact ⟨∅, inv_init key _⟩
  | @step H H' T T' op b _ hnl hstep ih =>
    obtain ⟨S, hI⟩ := ih
    -- the step lemmas say what the call returns; it is the state reached
    cases op with
    | insert n =>
      obtain ⟨H'', T'', b', e, hI', -⟩ := insert_step key hI (hnl n rfl)
      rw [hstep, Option.some.injEq, Prod.mk.injEq, Prod.mk.injEq] at e
      obtain ⟨rfl, rfl, -⟩ := e
      exact ⟨_, hI'⟩
    | removeByKey k =>
      obtain ⟨H'', T'', b', e, hI', -⟩ : ∃ H'' T'' b', RbtreeRun.step key H T (.removeByKey k) =
          some (H'', T'', b') ∧ Inv key H'' T'' (S.erase (key k)) ∧ _ := remove_step key hI
      rw [hstep, Option.some.injEq, Prod.mk.injEq, Prod.mk.injEq] at e
      obtain ⟨rfl, rfl, -⟩ := e
      exact ⟨_, hI'⟩

/-- On every tree that a run reaches, the read-only functions return what the increasing
    in-order sequence of its nodes says: `rbtree_lookup` the node of the key,
    `rbtree_lookup_max_lte` the last node whose key is at most the key, `rbtree_find_first`
    the first node, and `rbnode_get_next` / `rbnode_get_prev` the node after / before. -/
theorem rbtree_reachable_lookup {H₀ H : Heap ν} {T : Rbtree ν} (hr : Reachable key H₀ H T) :
    ∃ t : CTree ν, Rep H T.root t ∧ Ordered key t ∧
      RbtreeNav.rbtreeFindFirst H T = some t.toList.head? ∧
      (∀ k : ν, RbtreeNav.rbtreeLookup key H T (key k) =
          some (t.toList.find? fun y => key y = key k) ∧
        RbtreeNav.rbtreeLookupMaxLte key H T (key k) =
          some ((t.toList.filter fun y => key y ≤ key k).getLast?)) ∧
      ∀ n ∈ t.toList, RbtreeNav.rbnodeGetNext (T.count + 1) H n = some (succOf t.toList n) ∧
        RbtreeNav.rbnodeGetPrev (T.count + 1) H n = some (predOf t.toList n) := by
  obtain ⟨S, t, hv⟩ := hr.inv
  have hf : t.height ≤ T.count + 1 := by
    have := height_le_size t
    rw [hv.count]
    omega
  refine ⟨t, hv.holds.1, hv.ordered, RbtreeNav.rbtreeFindFirst_eq hv.holds.1 hv.count,
    fun k => ⟨RbtreeNav.rbtreeLookup_eq key hv.holds.1 hv.ordered hv.count,
      RbtreeNav.rbtreeLookupMaxLte_eq key hv.holds.1 hv.ordered hv.count⟩,
    fun n hn => ⟨RbtreeNav.rbnodeGetNext_eq hv.holds hv.ordered.nodup hn hf,
      RbtreeNav.rbnodeGetPrev_eq hv.holds hv.ordered.nodup hn hf⟩⟩

theorem rbtree_reachable_lookup_one :
    ∃ (H : Heap ℕ) (T : Rbtree ℕ), Reachable id (fun _ => ⟨none, .black, none, none⟩) H T ∧
      T.root = some 1 ∧
      ∃ t : CTree ℕ, Rep H T.root t ∧ Ordered id t ∧
        RbtreeNav.rbtreeFindFirst H T = some t.toList.head? ∧
        (∀ k : ℕ, RbtreeNav.rbtreeLookup id H T (id k) =
            some (t.toList.find? fun y => id y = id k) ∧
          RbtreeNav.rbtreeLookupMaxLte id H T (id k) =
            some ((t.toList.filter fun y => id y ≤ id k).getLast?)) ∧
        ∀ n ∈ t.toList, RbtreeNav.rbnodeGetNext (T.count + 1) H n = some (succOf t.toList n) ∧
          RbtreeNav.rbnodeGetPrev (T.count + 1) H n = some (predOf t.toList n) := by
  -- one insertion of node 1 into the empty tree
  have hr : Reachable id (fun _ => ⟨none, .black, none, none⟩) _ _ :=
    Reachable.step .init (fun n (_ : Op.insert (1 : ℕ) = .insert n) t ht => by
      rw [(rep_none_iff ht).1 rfl]
      simp) rfl
  exact ⟨_, _, hr, rfl, rbtree_reachable_lookup id hr⟩

end Nanos.RbtreeRun
