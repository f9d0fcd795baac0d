import Mathlib.Data.List.Nodup
import Mathlib.Order.Lattice

set_option autoImplicit false

/-!
# Colored binary trees

Binary trees whose nodes carry a red or black color, with their in-order
sequence, their height, and the left-leaning red-black shape `LL n t`: no red
right child, no red node with a red left child, and `n` black nodes on every
path from the root down to a `nil`. `succOf L x` is the element after `x` in a
list, the in-order successor when the list is the sequence of a tree.
-/

namespace Nanos.ColorTree

inductive Color where
  | black
  | red
deriving DecidableEq, Repr

def Color.flip : Color → Color
  | .black => .red
  | .red => .black

@[simp] theorem Color.flip_black : Color.black.flip = .red := rfl

@[simp] theorem Color.flip_red : Color.red.flip = .black := rfl

@[simp] theorem Color.flip_flip (c : Color) : c.flip.flip = c := by
  cases c <;> rfl

/-- What a node of this color adds to the black height. -/
def Color.weight : Color → ℕ
  | .black => 1
  | .red => 0

@[simp] theorem Color.weight_black : Color.black.weight = 1 := rfl

@[simp] theorem Color.weight_red : Color.red.weight = 0 := rfl

/-- The two child slots of a binary node. -/
inductive Hand where
  | left
  | right
deriving DecidableEq, Repr

def Hand.other : Hand → Hand
  | .left => .right
  | .right => .left

@[simp] theorem Hand.other_left : Hand.left.other = .right := rfl

@[simp] theorem Hand.other_right : Hand.right.other = .left := rfl

@[simp] theorem Hand.other_other (h : Hand) : h.other.other = h := by
  cases h <;> rfl

@[simp] theorem Hand.other_ne (h : Hand) : h.other ≠ h := by
  cases h <;> decide

inductive CTree (α : Type) where
  | nil
  | node (c : Color) (l : CTree α) (x : α) (r : CTree α)
deriving DecidableEq, Repr

namespace CTree
variable {α : Type}

def toList : CTree α → List α
  | nil => []
  | node _ l x r => l.toList ++ x :: r.toList

def size (t : CTree α) : ℕ := t.toList.length

def height : CTree α → ℕ
  | nil => 0
  | node _ l _ r => max l.height r.height + 1

def isRed : CTree α → Bool
  | node .red _ _ _ => true
  | _ => false

def child : Hand → CTree α → CTree α
  | .left, node _ l _ _ => l
  | .right, node _ _ _ r => r
  | _, nil => nil

def isNil : CTree α → Bool
  | nil => true
  | node .. => false

def setChild : Hand → CTree α → CTree α → CTree α
  | .left, node c _ x r, l => node c l x r
  | .right, node c l x _, r => node c l x r
  | _, nil, _ => nil

/-- A node given by sides: `near` on side `hand`, `far` on the other. -/
def nodeOn (hand : Hand) (c : Color) (near : CTree α) (x : α) (far : CTree α) : CTree α :=
  match hand with
  | .left => node c near x far
  | .right => node c far x near

def blacken : CTree α → CTree α
  | nil => nil
  | node _ l x r => node .black l x r

/-- Left-leaning red-black shape of black height `n`. -/
def LL : ℕ → CTree α → Prop
  | n, nil => n = 0
  | n, node .red l _ r => l.isRed = false ∧ r.isRed = false ∧ LL n l ∧ LL n r
  | 0, node .black _ _ _ => False
  | n + 1, node .black l _ r => r.isRed = false ∧ LL n l ∧ LL n r

@[simp] theorem toList_nil : (nil : CTree α).toList = [] := rfl

@[simp] theorem toList_node (c : Color) (l : CTree α) (x : α) (r : CTree α) :
    (node c l x r).toList = l.toList ++ x :: r.toList := rfl

@[simp] theorem isRed_nil : (nil : CTree α).isRed = false := rfl

@[simp] theorem isRed_node (c : Color) (l : CTree α) (x : α) (r : CTree α) :
    (node c l x r).isRed = decide (c = .red) := by
  cases c <;> rfl

@[simp] theorem child_left (c : Color) (l : CTree α) (x : α) (r : CTree α) :
    (node c l x r).child .left = l := rfl

@[simp] theorem child_right (c : Color) (l : CTree α) (x : α) (r : CTree α) :
    (node c l x r).child .right = r := rfl

@[simp] theorem child_nil (h : Hand) : (nil : CTree α).child h = nil := by
  cases h <;> rfl

@[simp] theorem isNil_nil : (nil : CTree α).isNil = true := rfl

@[simp] theorem isNil_node (c : Color) (l : CTree α) (x : α) (r : CTree α) :
    (node c l x r).isNil = false := rfl

@[simp] theorem setChild_left (c : Color) (l : CTree α) (x : α) (r t : CTree α) :
    (node c l x r).setChild .left t = node c t x r := rfl

@[simp] theorem setChild_right (c : Color) (l : CTree α) (x : α) (r t : CTree α) :
    (node c l x r).setChild .right t = node c l x t := rfl

@[simp] theorem nodeOn_left (c : Color) (near : CTree α) (x : α) (far : CTree α) :
    nodeOn .left c near x far = node c near x far := rfl

@[simp] theorem nodeOn_right (c : Color) (near : CTree α) (x : α) (far : CTree α) :
    nodeOn .right c near x far = node c far x near := rfl

theorem mem_nodeOn {hand : Hand} {c : Color} {near far : CTree α} {x z : α} :
    z ∈ (nodeOn hand c near x far).toList ↔ z ∈ near.toList ∨ z = x ∨ z ∈ far.toList := by
  cases hand
  · simp
  · simp only [nodeOn_right, toList_node, List.mem_append, List.mem_cons]
    tauto

theorem nodup_nodeOn {hand : Hand} {c : Color} {near far : CTree α} {x : α} :
    (nodeOn hand c near x far).toList.Nodup ↔
      near.toList.Nodup ∧ far.toList.Nodup ∧ x ∉ near.toList ∧ x ∉ far.toList ∧
        ∀ y ∈ near.toList, y ∉ far.toList := by
  cases hand
  · simp only [nodeOn_left, toList_node, List.nodup_append, List.nodup_cons, List.mem_cons]
    constructor
    · rintro ⟨hl, ⟨hx, hr⟩, hd⟩
      exact ⟨hl, hr, fun h => hd x h x (.inl rfl) rfl, hx, fun y hy hyr => hd y hy y (.inr hyr) rfl⟩
    · rintro ⟨hl, hr, hxl, hxr, hd⟩
      refine ⟨hl, ⟨hxr, hr⟩, ?_⟩
      rintro a ha b (rfl | hb) rfl
      · exact hxl ha
      · exact hd a ha hb
  · simp only [nodeOn_right, toList_node, List.nodup_append, List.nodup_cons, List.mem_cons]
    constructor
    · rintro ⟨hl, ⟨hx, hr⟩, hd⟩
      exact ⟨hr, hl, hx, fun h => hd x h x (.inl rfl) rfl, fun y hy hyr => hd y hyr y (.inr hy) rfl⟩
    · rintro ⟨hr, hl, hxr, hxl, hd⟩
      refine ⟨hl, ⟨hxr, hr⟩, ?_⟩
      rintro a ha b (rfl | hb) rfl
      · exact hxl ha
      · exact hd a hb ha

theorem nodup_node {c : Color} {l r : CTree α} {x : α} :
    (node c l x r).toList.Nodup ↔
      l.toList.Nodup ∧ r.toList.Nodup ∧ x ∉ l.toList ∧ x ∉ r.toList ∧
        ∀ y ∈ l.toList, y ∉ r.toList :=
  @nodup_nodeOn α .left c l r x

theorem sublist_nodeOn {hand : Hand} {c : Color} {s near far : CTree α} {x : α}
    (h : s.toList.Sublist near.toList) :
    (nodeOn hand c s x far).toList.Sublist (nodeOn hand c near x far).toList := by
  cases hand
  · simpa using h.append (List.Sublist.refl (x :: far.toList))
  · simpa using (List.Sublist.refl far.toList).append (h.cons_cons x)

theorem perm_nodeOn {hand : Hand} {c : Color} {s near far : CTree α} {x : α}
    (h : s.toList.Perm near.toList) :
    (nodeOn hand c s x far).toList.Perm (nodeOn hand c near x far).toList := by
  cases hand
  · simpa using h.append_right (x :: far.toList)
  · simpa using (List.Perm.refl far.toList).append (h.cons x)

theorem perm_nodeOn_cons {hand : Hand} {c : Color} {s near far : CTree α} {x a : α}
    (h : s.toList.Perm (a :: near.toList)) :
    (nodeOn hand c s x far).toList.Perm (a :: (nodeOn hand c near x far).toList) := by
  cases hand
  · simpa using h.append_right (x :: far.toList)
  · -- `a` moves to the front past the nodes left of it
    have hm : (far.toList ++ x :: a :: near.toList).Perm (a :: (far.toList ++ x :: near.toList)) := by
      simpa using @List.perm_middle _ a (far.toList ++ [x]) near.toList
    simpa using ((List.Perm.refl far.toList).append (h.cons x)).trans hm

theorem isNil_eq_false_of_isRed {t : CTree α} (h : t.isRed = true) : t.isNil = false := by
  cases t <;> simp_all

theorem isNil_iff (t : CTree α) : t.isNil = true ↔ t = nil := by
  cases t <;> simp

@[simp] theorem size_nil : (nil : CTree α).size = 0 := rfl

@[simp] theorem size_node (c : Color) (l : CTree α) (x : α) (r : CTree α) :
    (node c l x r).size = l.size + r.size + 1 := by
  simp [size]
  omega

theorem size_child_lt_of_toList (h : Hand) {t : CTree α} (s : CTree α) (ht : t.toList = s.toList)
    (hs : s ≠ nil) : (t.child h).size < s.size := by
  have hsz : t.size = s.size := by simp [size, ht]
  cases t with
  | nil => cases s with
    | nil => exact absurd rfl hs
    | node c l x r => simp
  | node c l x r => cases h <;> simp at hsz ⊢ <;> omega

@[simp] theorem blacken_nil : (nil : CTree α).blacken = nil := rfl

@[simp] theorem blacken_node (c : Color) (l : CTree α) (x : α) (r : CTree α) :
    (node c l x r).blacken = node .black l x r := rfl

@[simp] theorem toList_blacken (t : CTree α) : t.blacken.toList = t.toList := by
  cases t <;> rfl

@[simp] theorem LL_nil (n : ℕ) : LL n (nil : CTree α) ↔ n = 0 := by
  simp [LL]

@[simp] theorem LL_red (n : ℕ) (l : CTree α) (x : α) (r : CTree α) :
    LL n (node .red l x r) ↔ l.isRed = false ∧ r.isRed = false ∧ LL n l ∧ LL n r := by
  simp [LL]

@[simp] theorem LL_black_zero (l : CTree α) (x : α) (r : CTree α) :
    ¬ LL 0 (node .black l x r) := by
  simp [LL]

@[simp] theorem LL_black_succ (n : ℕ) (l : CTree α) (x : α) (r : CTree α) :
    LL (n + 1) (node .black l x r) ↔ r.isRed = false ∧ LL n l ∧ LL n r := by
  simp [LL]

/-- Both colors at once: the black height of a node is the one of its children
    plus the weight of its color. -/
theorem LL_node {n : ℕ} {c : Color} {l r : CTree α} {x : α} :
    LL (n + c.weight) (node c l x r) ↔
      r.isRed = false ∧ (c = .red → l.isRed = false) ∧ LL n l ∧ LL n r := by
  cases c <;> simp [and_left_comm]

theorem LL_ne_nil_of_pos {n : ℕ} {t : CTree α} (h : LL n t) (hn : 0 < n) : t ≠ nil := by
  rintro rfl
  simp at h
  omega

theorem LL_blacken {n : ℕ} {t : CTree α} (h : LL n t) :
    LL n t.blacken ∨ LL (n + 1) t.blacken := by
  cases t with
  | nil => exact .inl h
  | node c l x r =>
    cases c with
    | black => exact .inl h
    | red =>
      obtain ⟨-, hr, hl', hr'⟩ := (LL_red n l x r).1 h
      exact .inr ⟨hr, hl', hr'⟩

/-- A relation that holds along a list relates its middle element to both sides. -/
theorem pairwise_split {rel : α → α → Prop} {L R : List α} {x : α} (h : (L ++ x :: R).Pairwise rel) :
    (∀ y ∈ L, rel y x) ∧ ∀ y ∈ R, rel x y := by
  rw [List.pairwise_append, List.pairwise_cons] at h
  exact ⟨fun y hy => h.2.2 y hy x List.mem_cons_self, h.2.1.1⟩

/-- An element put between two parts of a list that a relation runs along, related to
    every element of both parts, keeps the relation running along it. -/
theorem pairwise_insert_mid {rel rel' : α → α → Prop} {L R : List α} {x : α}
    (h : (L ++ R).Pairwise rel) (himp : ∀ a ∈ L ++ R, ∀ b ∈ L ++ R, rel a b → rel' a b)
    (hL : ∀ y ∈ L, rel' y x) (hR : ∀ y ∈ R, rel' x y) : (L ++ x :: R).Pairwise rel' := by
  have h' := List.pairwise_append.1 (h.imp_of_mem fun {a b} ha hb => himp a ha b hb)
  refine List.pairwise_append.2 ⟨h'.1, List.pairwise_cons.2 ⟨hR, h'.2.1⟩, fun a ha b hb => ?_⟩
  rcases List.mem_cons.1 hb with rfl | hb
  · exact hL a ha
  · exact h'.2.2 a ha b hb

section order
variable {κ : Type} [LinearOrder κ] (key : α → κ)

/-- The in-order sequence of the nodes is strictly increasing in `key`. -/
def Ordered (t : CTree α) : Prop := t.toList.Pairwise fun a b => key a < key b

variable {key}

theorem ordered_split {L R : List α} {x : α} (h : (L ++ x :: R).Pairwise fun a b => key a < key b) :
    (∀ y ∈ L, key y < key x) ∧ ∀ y ∈ R, key x < key y :=
  pairwise_split h

/-- In an increasing list, everything from the first key above `k` on is above `k`. -/
theorem lt_of_mem_dropWhile_le {L : List α} {k : κ} (h : L.Pairwise fun a b => key a < key b) :
    ∀ x ∈ L.dropWhile (fun y => key y ≤ k), k < key x := by
  induction L with
  | nil => simp
  | cons y L ih =>
    obtain ⟨hy, hL⟩ := List.pairwise_cons.1 h
    by_cases hyk : key y ≤ k
    · rw [List.dropWhile_cons_of_pos (by simpa using hyk)]
      exact ih hL
    · rw [List.dropWhile_cons_of_neg (by simpa using hyk)]
      intro x hx
      rcases List.mem_cons.1 hx with rfl | hx
      · exact lt_of_not_ge hyk
      · exact (lt_of_not_ge hyk).trans (hy x hx)

theorem Ordered.children {c : Color} {l r : CTree α} {x : α} (h : Ordered key (node c l x r)) :
    Ordered key l ∧ Ordered key r := by
  rw [Ordered, toList_node, List.pairwise_append, List.pairwise_cons] at h
  exact ⟨h.1, h.2.1.2⟩

theorem Ordered.nodup {t : CTree α} (h : Ordered key t) : t.toList.Nodup :=
  List.Pairwise.imp (fun h e => (e ▸ h).false) h

/-- Removing the nodes of one key from a list of strictly increasing keys removes
    one node when the key is there. -/
theorem length_filter_key_ne {L : List α} (h : L.Pairwise fun a b => key a < key b) (a : κ) :
    (L.filter fun y => key y ≠ a).length + (if ∃ y ∈ L, key y = a then 1 else 0) = L.length := by
  induction L with
  | nil => simp
  | cons x L ih =>
    obtain ⟨hx, hL⟩ := List.pairwise_cons.1 h
    by_cases hxa : key x = a
    · -- the rest lies above `a`, so it keeps all its nodes
      have hne : ∀ y ∈ L, key y ≠ a := fun y hy => (hxa ▸ hx y hy).ne'
      rw [List.filter_cons_of_neg (by simpa using hxa), (List.filter_eq_self (l := L)).2
        fun y hy => by simpa using hne y hy]
      simp [hxa]
    · have hiff : (∃ y ∈ x :: L, key y = a) ↔ ∃ y ∈ L, key y = a := by simp [hxa]
      rw [List.filter_cons_of_pos (by simpa using hxa), List.length_cons, List.length_cons, ← ih hL]
      by_cases hL' : ∃ y ∈ L, key y = a
      · rw [if_pos (hiff.2 hL'), if_pos hL']
      · rw [if_neg (mt hiff.1 hL'), if_neg hL']

/-- A key that no node has splits a list into the nodes below and the nodes above it. -/
theorem length_filter_lt_add_gt {L : List α} {a : κ} (h : ∀ y ∈ L, key y ≠ a) :
    (L.filter fun y => key y < a).length + (L.filter fun y => a < key y).length = L.length := by
  induction L with
  | nil => simp
  | cons x L ih =>
    have hL := ih fun y hy => h y (List.mem_cons_of_mem x hy)
    rcases lt_or_gt_of_ne (h x List.mem_cons_self) with hx | hx
    · simp [hx, hx.not_gt]
      omega
    · simp [hx, hx.not_gt]
      omega

theorem pairwise_insert_between {L : List α} (h : L.Pairwise fun a b => key a < key b) (n : α) :
    (L.filter (fun y => key y < key n) ++ n :: L.filter (fun y => key n < key y)).Pairwise
      fun a b => key a < key b := by
  refine List.pairwise_append.2 ⟨h.filter _, List.pairwise_cons.2 ⟨fun y hy => ?_, h.filter _⟩, ?_⟩
  · simpa using (List.mem_filter.1 hy).2
  · intro a ha b hb
    have ha' : key a < key n := by simpa using (List.mem_filter.1 ha).2
    rcases List.mem_cons.1 hb with rfl | hb
    · exact ha'
    · exact ha'.trans (by simpa using (List.mem_filter.1 hb).2)

theorem filter_key_ne_of_mem {A B : List α} {x : α}
    (h : (A ++ x :: B).Pairwise fun a b => key a < key b) :
    (A ++ x :: B).filter (fun y => key y ≠ key x) = A ++ B := by
  obtain ⟨hA, hB⟩ := ordered_split h
  rw [List.filter_append, List.filter_cons_of_neg (by simp), List.filter_eq_self.2,
    List.filter_eq_self.2]
  · intro y hy
    simpa using (hB y hy).ne'
  · intro y hy
    simpa using (hA y hy).ne

theorem ordered_of_toList_eq {t s : CTree α} (e : t.toList = s.toList) (hs : Ordered key s) :
    Ordered key t := by
  unfold Ordered
  rw [e]
  exact hs

end order

theorem height_le_size (t : CTree α) : t.height ≤ t.size := by
  induction t with
  | nil => simp [height, size]
  | node c l x r ihl ihr =>
    simp only [height, size, toList_node, List.length_append, List.length_cons] at ihl ihr ⊢
    omega

def mirror : CTree α → CTree α
  | nil => nil
  | node c l x r => node c r.mirror x l.mirror

@[simp] theorem toList_mirror (t : CTree α) : t.mirror.toList = t.toList.reverse := by
  induction t with
  | nil => rfl
  | node c l x r ihl ihr => simp [mirror, ihl, ihr]

@[simp] theorem height_mirror (t : CTree α) : t.mirror.height = t.height := by
  induction t with
  | nil => rfl
  | node c l x r ihl ihr => simp [mirror, height, ihl, ihr, Nat.max_comm]

end CTree

section successor
variable {α : Type} [DecidableEq α]

/-- The element that follows the first occurrence of `x` in `L`, if there is one. -/
def succOf : List α → α → Option α
  | [], _ => none
  | y :: L, x => if y = x then L.head? else succOf L x

@[simp] theorem succOf_nil (x : α) : succOf [] x = none := rfl

@[simp] theorem succOf_cons_self (x : α) (L : List α) : succOf (x :: L) x = L.head? := by
  simp [succOf]

theorem succOf_cons_of_ne {x y : α} (L : List α) (h : y ≠ x) : succOf (y :: L) x = succOf L x := by
  simp [succOf, h]

theorem succOf_append_of_not_mem {A : List α} {x : α} (B : List α) (h : x ∉ A) :
    succOf (A ++ B) x = succOf B x := by
  induction A with
  | nil => rfl
  | cons y A ih =>
    rw [List.mem_cons, not_or] at h
    rw [List.cons_append, succOf_cons_of_ne _ (Ne.symm h.1), ih h.2]

theorem succOf_append_of_mem {A : List α} {x : α} (B : List α) (h : x ∈ A) :
    succOf (A ++ B) x = (succOf A x).or B.head? := by
  induction A with
  | nil => cases h
  | cons y A ih =>
    by_cases hy : y = x
    · subst hy
      simp [List.head?_append]
    · rw [List.cons_append, succOf_cons_of_ne _ hy, succOf_cons_of_ne _ hy]
      exact ih ((List.mem_cons.1 h).resolve_left (Ne.symm hy))

theorem succOf_append_cons {A B : List α} {x : α} (h : x ∉ A) : succOf (A ++ x :: B) x = B.head? := by
  rw [succOf_append_of_not_mem _ h, succOf_cons_self]

/-- The element that precedes the last occurrence of `x` in `L`: its successor in the
    reversed list. -/
def predOf (L : List α) (x : α) : Option α := succOf L.reverse x

end successor

end Nanos.ColorTree
