import Nanos.RbtreeRefinement

set_option autoImplicit false

/-!
# `runtime/rbtree.c`: in-order navigation and ordered lookup

The read-only functions of `rbtree.c` that walk a tree along its child and parent
links: `find_limit`, `find_ancestor_of_hand`, `get_adjacent_inorder` with
`rbnode_get_next`, `rbtree_find_first`, and `max_lte_internal` with
`rbtree_lookup_max_lte`. An outer `none` is a run out of fuel, an inner `none`
is `INVALID_ADDRESS`. On a heap that holds a tree whose root has no parent, each
returns what the in-order sequence of the tree says: its first node, the node
after a given one, the last node whose key is at most the key looked up.
-/

namespace Nanos.RbtreeNav
open ColorTree NodeHeap CTree RbtreeRefinement Rbtree

variable {ν : Type}

/-- `find_limit(h, max)`: down the child links on one side to the last node. -/
def findLimit : ℕ → Heap ν → ν → Bool → Option ν
  | 0, _, _, _ => none
  | fuel + 1, H, h, max =>
    match (H h).child (if max then .right else .left) with
    | none => some h
    | some c => findLimit fuel H c max

def rbtreeFindFirst (H : Heap ν) (t : Rbtree ν) : Option (Option ν) :=
  match t.root with
  | none => some none
  | some r => (findLimit (t.count + 1) H r false).map some

section lookup
variable {κ : Type} [LinearOrder κ] (key : ν → κ)

/-- `max_lte_internal(t, h, k)`, the key node `k` given by its key. -/
def maxLteInternal (k : κ) : ℕ → Heap ν → ν → Option (Option ν)
  | 0, _, _ => none
  | fuel + 1, H, h =>
    match compare k (key h) with
    | .eq => some (some h)
    | .gt =>
      match (H h).right with
      | none => some (some h)
      | some r => (maxLteInternal k fuel H r).map fun next =>
        match next with
        | none => some h
        | some nx => if compare (key nx) k = .gt then some h else some nx
    | .lt =>
      match (H h).left with
      | none => some none
      | some l => maxLteInternal k fuel H l

def rbtreeLookupMaxLte (H : Heap ν) (t : Rbtree ν) (k : κ) : Option (Option ν) :=
  match t.root with
  | none => some none
  | some r => maxLteInternal key k (t.count + 1) H r

/-- The loop of `rbtree_lookup(t, k)` from `h`, the key node `k` given by its key. -/
def lookupLoop (k : κ) : ℕ → Heap ν → Option ν → Option (Option ν)
  | _, _, none => some none
  | 0, _, some _ => none
  | fuel + 1, H, some h =>
    match compare k (key h) with
    | .eq => some (some h)
    | .lt => lookupLoop k fuel H (H h).left
    | .gt => lookupLoop k fuel H (H h).right

def rbtreeLookup (H : Heap ν) (t : Rbtree ν) (k : κ) : Option (Option ν) :=
  lookupLoop key k (t.count + 1) H t.root

end lookup

section next
variable [DecidableEq ν]

/-- `find_ancestor_of_hand(h, hand)`: up the parent links to the first node that
    has the path on its other hand. -/
def findAncestorOfHand : ℕ → Heap ν → ν → Hand → Option (Option ν)
  | 0, _, _, _ => none
  | fuel + 1, H, h, hand =>
    match (H h).parent with
    | none => some none
    | some p =>
      if (H p).child hand.other = some h then some (some p)
      else findAncestorOfHand fuel H p hand

def getAdjacentInorder (fuel : ℕ) (H : Heap ν) (h : ν) (hand : Hand) : Option (Option ν) :=
  match (H h).child hand with
  | some hh => (findLimit fuel H hh (hand == .left)).map some
  | none => findAncestorOfHand fuel H h hand

def rbnodeGetNext (fuel : ℕ) (H : Heap ν) (h : ν) : Option (Option ν) :=
  getAdjacentInorder fuel H h .right

def rbnodeGetPrev (fuel : ℕ) (H : Heap ν) (h : ν) : Option (Option ν) :=
  getAdjacentInorder fuel H h .left

end next

/-- The loop of `find_ancestor_of_hand(h, hand)` climbs `n` parent links from `h`
    and then returns `res`. -/
inductive ClimbsTo (H : Heap ν) (hand : Hand) : ν → Option ν → ℕ → Prop
  | top {h : ν} : (H h).parent = none → ClimbsTo H hand h none 0
  | found {h p : ν} : (H h).parent = some p → (H p).child hand.other = some h →
      ClimbsTo H hand h (some p) 0
  | up {h p : ν} {res : Option ν} {n : ℕ} : (H h).parent = some p →
      (H p).child hand.other ≠ some h → ClimbsTo H hand p res n → ClimbsTo H hand h res (n + 1)

theorem holds_node {H : Heap ν} {q p : Option ν} {c : Color} {l r : CTree ν} {x : ν}
    (hs : Holds H q p (node c l x r)) :
    p = some x ∧ (H x).parent = q ∧ Holds H (some x) (H x).left l ∧
      Holds H (some x) (H x).right r :=
  ⟨hs.1.1, hs.2.1, ⟨hs.1.2.2.1, hs.2.2.1⟩, ⟨hs.1.2.2.2, hs.2.2.2⟩⟩

theorem findLimit_left {H : Heap ν} {t : CTree ν} :
    ∀ {h : ν} {fuel : ℕ}, Rep H (some h) t → t.height ≤ fuel →
      findLimit fuel H h false = t.toList.head? := by
  induction t with
  | nil => intro h fuel hr; simp at hr
  | node c l x r ihl _ =>
    intro h fuel hr hf
    obtain ⟨hx, -, hl, -⟩ := hr
    obtain rfl := Option.some.inj hx
    cases fuel with
    | zero => simp only [height] at hf; omega
    | succ f =>
      -- the first node is the node itself when it has no left child
      cases hlh : (H h).left with
      | none =>
        obtain rfl : l = nil := (rep_none_iff hl).1 hlh
        simp [findLimit, hlh]
      | some y =>
        rw [hlh] at hl
        have ih : findLimit f H y false = l.toList.head? := ihl hl (by simp only [height] at hf; omega)
        obtain ⟨z, L, hL⟩ := List.exists_cons_of_ne_nil (List.ne_nil_of_mem (rep_some_mem hl))
        simp only [findLimit, Bool.false_eq_true, if_false, Node.child_left, hlh]
        rw [ih, toList_node, hL]
        rfl

theorem rbtreeFindFirst_eq {H : Heap ν} {T : Rbtree ν} {t : CTree ν} (hs : Rep H T.root t)
    (hc : T.count = t.size) : rbtreeFindFirst H T = some t.toList.head? := by
  unfold rbtreeFindFirst
  cases hr : T.root with
  | none =>
    rw [hr] at hs
    simp [(rep_none_iff hs).1 rfl]
  | some r =>
    rw [hr] at hs
    have hlim : findLimit (T.count + 1) H r false = t.toList.head? :=
      findLimit_left hs (by have := height_le_size t; omega)
    obtain ⟨w, L, hL⟩ := List.exists_cons_of_ne_nil (List.ne_nil_of_mem (rep_some_mem hs))
    simp only [hlim, hL]
    rfl

section lookup
variable {κ : Type} [LinearOrder κ] (key : ν → κ)

/-- `max_lte_internal(t, h, k)` on an ordered tree: the last node in order whose
    key is at most `k`, `INVALID_ADDRESS` when there is none. -/
theorem maxLteInternal_eq {H : Heap ν} {k : κ} {t : CTree ν} :
    ∀ {h : ν} {fuel : ℕ}, Rep H (some h) t → Ordered key t → t.height ≤ fuel →
      maxLteInternal key k fuel H h = some ((t.toList.filter fun y => key y ≤ k).getLast?) := by
  induction t with
  | nil => intro h fuel hr; simp at hr
  | node c l z r ihl ihr =>
    intro h fuel hr ho hf
    obtain ⟨hz, -, hl, hr⟩ := hr
    obtain rfl := Option.some.inj hz
    obtain ⟨hol, hor⟩ := ho.children
    obtain ⟨hbelow, habove⟩ := ordered_split ho
    cases fuel with
    | zero => simp only [height] at hf; omega
    | succ f =>
      have hfl : l.height ≤ f := by simp only [height] at hf; omega
      have hfr : r.height ≤ f := by simp only [height] at hf; omega
      simp only [toList_node, List.filter_append, List.filter_cons, maxLteInternal]
      rcases lt_trichotomy k (key h) with hlt | heq | hgt
      · -- `k` is below the root: only the left subtree can hold the answer
        have hr0 : (r.toList.filter fun y => key y ≤ k) = [] :=
          List.filter_eq_nil_iff.2 fun y hy => by simpa using hlt.trans (habove y hy)
        rw [compare_lt_iff_lt.2 hlt, if_neg (by simpa using hlt), hr0, List.append_nil]
        cases hlh : (H h).left with
        | none =>
          obtain rfl : l = nil := (rep_none_iff hl).1 hlh
          rfl
        | some y =>
          rw [hlh] at hl
          exact ihl hl hol hfl
      · -- the root has the key
        have hr0 : (r.toList.filter fun y => key y ≤ k) = [] :=
          List.filter_eq_nil_iff.2 fun y hy => by simpa [heq] using habove y hy
        rw [compare_eq_iff_eq.2 heq, if_pos (by simp [heq]), hr0]
        simp
      · -- `k` is above the root: the answer is in the right subtree if anywhere there
        rw [compare_gt_iff_gt.2 hgt, if_pos (by simpa using hgt.le)]
        cases hrh : (H h).right with
        | none =>
          obtain rfl : r = nil := (rep_none_iff hr).1 hrh
          simp
        | some y =>
          rw [hrh] at hr
          simp only [ihr hr hor hfr]
          cases hlast : (r.toList.filter fun y => key y ≤ k).getLast? with
          | none =>
            rw [List.getLast?_eq_none_iff.1 hlast]
            simp
          | some nx =>
            have hnx : key nx ≤ k := by simpa using (List.mem_filter.1 (List.mem_of_getLast? hlast)).2
            have hcmp : compare (key nx) k ≠ .gt := by
              rw [Ne, compare_gt_iff_gt, not_lt]
              exact hnx
            simp only [Option.map_some, if_neg hcmp, List.getLast?_append, List.getLast?_cons, hlast]
            rfl

theorem split_of_getLast?_filter_le {L : List ν} {k : κ} {m : ν}
    (hL : L.Pairwise fun a b => key a < key b)
    (h : (L.filter fun y => key y ≤ k).getLast? = some m) :
    ∃ A B, L = A ++ m :: B ∧ key m ≤ k ∧ ∀ b ∈ B, k < key b := by
  induction L with
  | nil => simp at h
  | cons x L ih =>
    obtain ⟨hx, hL'⟩ := List.pairwise_cons.1 hL
    by_cases hxk : key x ≤ k
    · rw [List.filter_cons_of_pos (by simpa using hxk)] at h
      cases hF : L.filter (fun y => key y ≤ k) with
      | nil =>
        -- `x` is the last node at most `k`
        rw [hF] at h
        obtain rfl : x = m := by simpa using h
        refine ⟨[], L, rfl, hxk, fun b hb => lt_of_not_ge ?_⟩
        simpa using List.filter_eq_nil_iff.1 hF b hb
      | cons y F =>
        rw [hF, List.getLast?_cons_cons] at h
        obtain ⟨A, B, rfl, hm, hB⟩ := ih hL' (by rw [hF]; exact h)
        exact ⟨x :: A, B, rfl, hm, hB⟩
    · -- `x` is above `k`, and so is everything after it
      have hF : (L.filter fun y => key y ≤ k) = [] :=
        List.filter_eq_nil_iff.2 fun y hy => by simpa using (lt_of_not_ge hxk).trans (hx y hy)
      rw [List.filter_cons_of_neg (by simpa using hxk), hF] at h
      simp at h

theorem lt_of_getLast?_filter_le_eq_none {L : List ν} {k : κ}
    (h : (L.filter fun y => key y ≤ k).getLast? = none) : ∀ x ∈ L, k < key x := by
  intro x hx
  have := List.filter_eq_nil_iff.1 (List.getLast?_eq_none_iff.1 h) x hx
  exact lt_of_not_ge (by simpa using this)

theorem rbtreeLookupMaxLte_eq {H : Heap ν} {T : Rbtree ν} {t : CTree ν} {k : κ}
    (hs : Rep H T.root t) (ho : Ordered key t) (hc : T.count = t.size) :
    rbtreeLookupMaxLte key H T k = some ((t.toList.filter fun y => key y ≤ k).getLast?) := by
  unfold rbtreeLookupMaxLte
  cases hr : T.root with
  | none =>
    rw [hr] at hs
    simp [(rep_none_iff hs).1 rfl]
  | some r =>
    rw [hr] at hs
    exact maxLteInternal_eq key hs ho (by have := height_le_size t; omega)

/-- The loop of `rbtree_lookup` on an ordered tree: the node of the key, `INVALID_ADDRESS`
    when there is none. -/
theorem lookupLoop_eq {H : Heap ν} {k : κ} {t : CTree ν} :
    ∀ {p : Option ν} {fuel : ℕ}, Rep H p t → Ordered key t → t.height ≤ fuel →
      lookupLoop key k fuel H p = some (t.toList.find? fun y => key y = k) := by
  induction t with
  | nil =>
    intro p fuel hr _ _
    rw [(rep_nil H p).1 hr]
    cases fuel <;> rfl
  | node c l z r ihl ihr =>
    intro p fuel hr ho hf
    obtain ⟨rfl, -, hl, hr⟩ := hr
    obtain ⟨hol, hor⟩ := ho.children
    obtain ⟨hlz, hzr⟩ := ordered_split ho
    cases fuel with
    | zero => simp only [height] at hf; omega
    | succ f =>
    have hfl : l.height ≤ f := by simp only [height] at hf; omega
    have hfr : r.height ≤ f := by simp only [height] at hf; omega
    simp only [lookupLoop, toList_node, List.find?_append]
    -- the root's key against `k` says on which side the node of `k` lies
    rcases lt_trichotomy k (key z) with hk | hk | hk
    · have hnr : (z :: r.toList).find? (fun y => key y = k) = none :=
        List.find?_eq_none.2 fun y hy => by
          rcases List.mem_cons.1 hy with rfl | hy
          · simpa using ne_of_gt hk
          · simpa using ne_of_gt (hk.trans (hzr y hy))
      rw [compare_lt_iff_lt.2 hk, ihl hl hol hfl, hnr, Option.or_none]
    · have hnl : l.toList.find? (fun y => key y = k) = none :=
        List.find?_eq_none.2 fun y hy => by simpa [hk] using ne_of_lt (hlz y hy)
      rw [compare_eq_iff_eq.2 hk, hnl, Option.none_or]
      simp [hk]
    · have hnl : l.toList.find? (fun y => key y = k) = none :=
        List.find?_eq_none.2 fun y hy => by simpa using ne_of_lt ((hlz y hy).trans hk)
      rw [compare_gt_iff_gt.2 hk, ihr hr hor hfr, hnl, Option.none_or, List.find?_cons]
      simp [ne_of_lt hk]

theorem rbtreeLookup_eq {H : Heap ν} {T : Rbtree ν} {t : CTree ν} {k : κ}
    (hs : Rep H T.root t) (ho : Ordered key t) (hc : T.count = t.size) :
    rbtreeLookup key H T k = some (t.toList.find? fun y => key y = k) :=
  lookupLoop_eq key hs ho (by have := height_le_size t; omega)

end lookup

section next
variable [DecidableEq ν]

theorem findAncestorOfHand_of_climbsTo {H : Heap ν} {hand : Hand} {h : ν} {res : Option ν}
    {n : ℕ} (hc : ClimbsTo H hand h res n) :
    ∀ {fuel : ℕ}, n < fuel → findAncestorOfHand fuel H h hand = some res := by
  induction hc with
  | top hp =>
    rintro (_ | f) hf
    · omega
    · simp [findAncestorOfHand, hp]
  | found hp hc =>
    rintro (_ | f) hf
    · omega
    · simp [findAncestorOfHand, hp, hc]
  | up hp hc _ ih =>
    rintro (_ | f) hf
    · omega
    · simp only [findAncestorOfHand, hp, if_neg hc]
      exact ih (by omega)


theorem climbsTo_of_last {H : Heap ν} {t : CTree ν} :
    ∀ {q : Option ν} {y x : ν}, Holds H q (some y) t → t.toList.Nodup → x ∈ t.toList →
      succOf t.toList x = none → ∀ {res : Option ν} {n : ℕ}, ClimbsTo H .right y res n →
        ∃ k < t.height, ClimbsTo H .right x res (n + k) := by
  induction t with
  | nil => intro q y x _ _ hx; simp at hx
  | node c l z r _ ihr =>
    intro q y x hs hn hx hlast res n hc
    obtain ⟨hy, -, hsl, hsr⟩ := holds_node hs
    obtain rfl := Option.some.inj hy
    obtain ⟨-, hnr, hyl, -, hdisj⟩ := nodup_node.1 hn
    simp only [toList_node] at hx hlast
    by_cases hxl : x ∈ l.toList
    · -- the node after a node of the left subtree is at the latest the root
      rw [succOf_append_of_mem _ hxl] at hlast
      simp at hlast
    · rw [succOf_append_of_not_mem _ hxl] at hlast
      by_cases hyx : y = x
      · subst hyx
        exact ⟨0, by simp [height], hc⟩
      · rw [succOf_cons_of_ne _ hyx] at hlast
        have hxr : x ∈ r.toList := by
          rcases List.mem_append.1 hx with h | h
          · exact absurd h hxl
          · exact (List.mem_cons.1 h).resolve_left (Ne.symm hyx)
        -- one more link up, from the root of the right subtree to `y`
        obtain ⟨ry, hry⟩ : ∃ ry, (H y).right = some ry := by
          cases hr : (H y).right with
          | none => rw [(rep_none_iff hsr.1).1 hr] at hxr; simp at hxr
          | some ry => exact ⟨ry, rfl⟩
        rw [hry] at hsr
        have hup : ClimbsTo H .right ry res (n + 1) := by
          refine .up ?_ ?_ hc
          · cases r with
            | nil => simp at hxr
            | node c' l' w r' =>
              obtain ⟨hw, hpw, -⟩ := holds_node hsr
              rwa [← Option.some.inj hw] at hpw
          · -- `ry` is not also the left child: the two subtrees share no node
            intro hl
            simp only [Hand.other_right, Node.child_left] at hl
            rw [hl] at hsl
            exact hdisj ry (rep_some_mem hsl.1) (rep_some_mem hsr.1)
        obtain ⟨k, hk, hck⟩ := ihr hsr hnr hxr hlast hup
        refine ⟨k + 1, by simp only [height]; omega, ?_⟩
        rwa [show n + (k + 1) = n + 1 + k by omega]

theorem climbsTo_succ {H : Heap ν} {t : CTree ν} :
    ∀ {q p : Option ν} {x s : ν}, Holds H q p t → t.toList.Nodup → x ∈ t.toList →
      (H x).right = none → succOf t.toList x = some s →
        ∃ n < t.height, ClimbsTo H .right x (some s) n := by
  induction t with
  | nil => intro q p x s _ _ hx; simp at hx
  | node c l z r ihl ihr =>
    intro q p x s hs hn hx hxr hsucc
    obtain ⟨-, -, hsl, hsr⟩ := holds_node hs
    obtain ⟨hnl, hnr, hzl, -, -⟩ := nodup_node.1 hn
    simp only [toList_node] at hx hsucc
    by_cases hxl : x ∈ l.toList
    · rw [succOf_append_of_mem _ hxl] at hsucc
      cases hl : succOf l.toList x with
      | some s' =>
        -- the successor lies in the left subtree
        rw [hl] at hsucc
        obtain rfl : s' = s := Option.some.inj hsucc
        obtain ⟨n, hn', hc⟩ := ihl hsl hnl hxl hxr hl
        exact ⟨n, by simp only [height]; omega, hc⟩
      | none =>
        -- `x` is the last node of the left subtree, and `z` comes next
        rw [hl] at hsucc
        obtain rfl : z = s := Option.some.inj hsucc
        obtain ⟨lz, hlz⟩ : ∃ lz, (H z).left = some lz := by
          cases hl' : (H z).left with
          | none => rw [(rep_none_iff hsl.1).1 hl'] at hxl; simp at hxl
          | some lz => exact ⟨lz, rfl⟩
        rw [hlz] at hsl
        have hfound : ClimbsTo H .right lz (some z) 0 := by
          refine .found ?_ (by simpa using hlz)
          cases l with
          | nil => simp at hxl
          | node c' l' w r' =>
            obtain ⟨hw, hpw, -⟩ := holds_node hsl
            rwa [← Option.some.inj hw] at hpw
        obtain ⟨k, hk, hc⟩ := climbsTo_of_last hsl hnl hxl hl hfound
        exact ⟨0 + k, by simp only [height]; omega, hc⟩
    · rw [succOf_append_of_not_mem _ hxl] at hsucc
      by_cases hzx : z = x
      · -- the root has no right child, so nothing follows it
        subst hzx
        rw [succOf_cons_self, (rep_none_iff hsr.1).1 hxr] at hsucc
        simp at hsucc
      · rw [succOf_cons_of_ne _ hzx] at hsucc
        have hxr' : x ∈ r.toList := by
          rcases List.mem_append.1 hx with h | h
          · exact absurd h hxl
          · exact (List.mem_cons.1 h).resolve_left (Ne.symm hzx)
        obtain ⟨n, hn', hc⟩ := ihr hsr hnr hxr' hxr hsucc
        exact ⟨n, by simp only [height]; omega, hc⟩

theorem succOf_of_right {H : Heap ν} {t : CTree ν} :
    ∀ {p : Option ν} {x hh : ν}, Rep H p t → t.toList.Nodup → x ∈ t.toList →
      (H x).right = some hh →
        ∃ r, Rep H (some hh) r ∧ r.height < t.height ∧ succOf t.toList x = r.toList.head? := by
  induction t with
  | nil => intro p x hh _ _ hx; simp at hx
  | node c l z r ihl ihr =>
    intro p x hh hr hn hx hxr
    obtain ⟨-, -, hrl, hrr⟩ := hr
    obtain ⟨hnl, hnr, hzl, -, -⟩ := nodup_node.1 hn
    simp only [toList_node]
    by_cases hxl : x ∈ l.toList
    · obtain ⟨r', hr', hh', hs⟩ := ihl hrl hnl hxl hxr
      obtain ⟨w, L, hL⟩ := List.exists_cons_of_ne_nil (List.ne_nil_of_mem (rep_some_mem hr'))
      refine ⟨r', hr', by simp only [height]; omega, ?_⟩
      rw [succOf_append_of_mem _ hxl, hs, hL]
      rfl
    · rw [succOf_append_of_not_mem _ hxl]
      by_cases hzx : z = x
      · subst hzx
        rw [hxr] at hrr
        exact ⟨r, hrr, by simp only [height]; omega, succOf_cons_self _ _⟩
      · rw [succOf_cons_of_ne _ hzx]
        have hxr' : x ∈ r.toList := by
          rcases List.mem_append.1 hx with h | h
          · exact absurd h hxl
          · exact (List.mem_cons.1 h).resolve_left (Ne.symm hzx)
        obtain ⟨r', hr', hh', hs⟩ := ihr hrr hnr hxr' hxr
        exact ⟨r', hr', by simp only [height]; omega, hs⟩

/-- `rbnode_get_next(x)` on a node of a tree whose root has no parent: the node
    after `x` in the in-order sequence, `INVALID_ADDRESS` after the last. -/
theorem rbnodeGetNext_eq {H : Heap ν} {root : Option ν} {t : CTree ν} {x : ν} {fuel : ℕ}
    (hs : Holds H none root t) (hn : t.toList.Nodup) (hx : x ∈ t.toList) (hf : t.height ≤ fuel) :
    rbnodeGetNext fuel H x = some (succOf t.toList x) := by
  unfold rbnodeGetNext getAdjacentInorder
  cases hxr : (H x).right with
  | some hh =>
    obtain ⟨r, hr, hh', hsucc⟩ := succOf_of_right hs.1 hn hx hxr
    have hlim : findLimit fuel H hh false = r.toList.head? := findLimit_left hr (by omega)
    simp only [Node.child_right, hxr, hsucc]
    rw [show (Hand.right == Hand.left) = false from rfl, hlim]
    obtain ⟨w, L, hL⟩ := List.exists_cons_of_ne_nil (List.ne_nil_of_mem (rep_some_mem hr))
    rw [hL]
    rfl
  | none =>
    simp only [Node.child_right, hxr]
    cases hsucc : succOf t.toList x with
    | some s =>
      obtain ⟨n, hn', hc⟩ := climbsTo_succ hs hn hx hxr hsucc
      exact findAncestorOfHand_of_climbsTo hc (by omega)
    | none =>
      -- the last node climbs all the way to the root, which has no parent
      cases t with
      | nil => simp at hx
      | node c l y r =>
        obtain ⟨hy, hpy, -, -⟩ := holds_node hs
        subst hy
        obtain ⟨k, hk, hc⟩ := climbsTo_of_last hs hn hx hsucc (ClimbsTo.top hpy)
        exact findAncestorOfHand_of_climbsTo hc (by omega)

/-! ## The predecessor, by symmetry -/

omit [DecidableEq ν] in
theorem findLimit_mirror (H : Heap ν) :
    ∀ (fuel : ℕ) (h : ν) (max : Bool), findLimit fuel H.mirror h max = findLimit fuel H h !max
  | 0, _, _ => rfl
  | fuel + 1, h, max => by
    have hc : (H.mirror h).child (if max then .right else .left) =
        (H h).child (if !max then .right else .left) := by
      cases max <;> simp
    simp only [findLimit, hc]
    cases (H h).child (if !max then .right else .left) with
    | none => rfl
    | some c => exact findLimit_mirror H fuel c max

theorem findAncestorOfHand_mirror (H : Heap ν) :
    ∀ (fuel : ℕ) (h : ν) (hand : Hand),
      findAncestorOfHand fuel H.mirror h hand = findAncestorOfHand fuel H h hand.other
  | 0, _, _ => rfl
  | fuel + 1, h, hand => by
    simp only [findAncestorOfHand, Heap.mirror_apply, Node.mirror_parent, Node.child_mirror]
    cases (H h).parent with
    | none => rfl
    | some p =>
      simp only
      split
      · rfl
      · exact findAncestorOfHand_mirror H fuel p hand

theorem getAdjacentInorder_mirror (fuel : ℕ) (H : Heap ν) (h : ν) (hand : Hand) :
    getAdjacentInorder fuel H.mirror h hand = getAdjacentInorder fuel H h hand.other := by
  unfold getAdjacentInorder
  rw [Heap.mirror_apply, Node.child_mirror, findAncestorOfHand_mirror]
  cases (H h).child hand.other with
  | none => rfl
  | some hh =>
    simp only [findLimit_mirror]
    cases hand <;> rfl

/-- `rbnode_get_prev(x)` on a node of a tree whose root has no parent: the node before
    `x` in the in-order sequence, `INVALID_ADDRESS` before the first. -/
theorem rbnodeGetPrev_eq {H : Heap ν} {root : Option ν} {t : CTree ν} {x : ν} {fuel : ℕ}
    (hs : Holds H none root t) (hn : t.toList.Nodup) (hx : x ∈ t.toList) (hf : t.height ≤ fuel) :
    rbnodeGetPrev fuel H x = some (predOf t.toList x) := by
  -- the predecessor is the successor in the mirrored heap, which holds the mirrored tree
  have hs' : Holds H.mirror none root t.mirror := ⟨rep_mirror hs.1, links_mirror hs.2⟩
  have hnext := rbnodeGetNext_eq hs' (by simpa using List.nodup_reverse.2 hn) (by simpa using hx)
    (by simpa using hf)
  rw [rbnodeGetNext, getAdjacentInorder_mirror, toList_mirror] at hnext
  exact hnext

end next

end Nanos.RbtreeNav
