import Nanos.ColorTree

set_option autoImplicit false

/-!
# Heaps of parent-linked colored nodes

A heap maps each node address to its record: a parent link, a color and two
child links, `none` standing for the null pointer. `Rep H p t` says that the
child links of `H`, followed from `p`, spell the colored tree `t`; `Links H q t`
says that every node of `t` links back to its parent, and the root to `q`.
Writes to a node outside a tree leave its representation unchanged.
-/

namespace Nanos.NodeHeap
open ColorTree

@[ext]
structure Node (ν : Type) where
  parent : Option ν
  color : Color
  left : Option ν
  right : Option ν
deriving DecidableEq, Repr

namespace Node
variable {ν : Type}

def child (n : Node ν) : Hand → Option ν
  | .left => n.left
  | .right => n.right

def setChild (n : Node ν) : Hand → Option ν → Node ν
  | .left, c => { n with left := c }
  | .right, c => { n with right := c }

@[simp] theorem child_left (n : Node ν) : n.child .left = n.left := rfl
@[simp] theorem child_right (n : Node ν) : n.child .right = n.right := rfl

@[simp] theorem setChild_parent (n : Node ν) (h : Hand) (c : Option ν) :
    (n.setChild h c).parent = n.parent := by
  cases h <;> rfl

@[simp] theorem setChild_color (n : Node ν) (h : Hand) (c : Option ν) :
    (n.setChild h c).color = n.color := by
  cases h <;> rfl

@[simp] theorem setChild_child_self (n : Node ν) (h : Hand) (c : Option ν) :
    (n.setChild h c).child h = c := by
  cases h <;> rfl

@[simp] theorem setChild_child_other (n : Node ν) (h : Hand) (c : Option ν) :
    (n.setChild h c).child h.other = n.child h.other := by
  cases h <;> rfl

@[simp] theorem setChild_other_child (n : Node ν) (h : Hand) (c : Option ν) :
    (n.setChild h.other c).child h = n.child h := by
  cases h <;> rfl

@[simp] theorem child_with_parent (n : Node ν) (p : Option ν) (h : Hand) :
    ({ n with parent := p } : Node ν).child h = n.child h := by
  cases h <;> rfl

@[simp] theorem child_with_color (n : Node ν) (c : Color) (h : Hand) :
    ({ n with color := c } : Node ν).child h = n.child h := by
  cases h <;> rfl

@[simp] theorem child_with_parent_color (n : Node ν) (p : Option ν) (c : Color) (h : Hand) :
    ({ n with parent := p, color := c } : Node ν).child h = n.child h := by
  cases h <;> rfl

@[simp] theorem setChild_left_left (n : Node ν) (c : Option ν) :
    (n.setChild .left c).left = c := rfl
@[simp] theorem setChild_left_right (n : Node ν) (c : Option ν) :
    (n.setChild .left c).right = n.right := rfl
@[simp] theorem setChild_right_left (n : Node ν) (c : Option ν) :
    (n.setChild .right c).left = n.left := rfl
@[simp] theorem setChild_right_right (n : Node ν) (c : Option ν) :
    (n.setChild .right c).right = c := rfl

def mirror (n : Node ν) : Node ν := { n with left := n.right, right := n.left }

@[simp] theorem mirror_parent (n : Node ν) : n.mirror.parent = n.parent := rfl

@[simp] theorem mirror_color (n : Node ν) : n.mirror.color = n.color := rfl

@[simp] theorem mirror_left (n : Node ν) : n.mirror.left = n.right := rfl

@[simp] theorem mirror_right (n : Node ν) : n.mirror.right = n.left := rfl

@[simp] theorem child_mirror (n : Node ν) (h : Hand) : n.mirror.child h = n.child h.other := by
  cases h <;> rfl

end Node

abbrev Heap (ν : Type) := ν → Node ν

namespace Heap
variable {ν : Type} [DecidableEq ν]

def modify (H : Heap ν) (p : ν) (f : Node ν → Node ν) : Heap ν :=
  Function.update H p (f (H p))

def setParent (H : Heap ν) (p : ν) (q : Option ν) : Heap ν :=
  H.modify p fun n => { n with parent := q }

/-- `if (n) set_parent(n, q)`. -/
def setParentOf (H : Heap ν) : Option ν → Option ν → Heap ν
  | some p, q => H.setParent p q
  | none, _ => H

def setColor (H : Heap ν) (p : ν) (c : Color) : Heap ν :=
  H.modify p fun n => { n with color := c }

def setParentColor (H : Heap ν) (p : ν) (q : Option ν) (c : Color) : Heap ν :=
  H.modify p fun n => { n with parent := q, color := c }

def setChild (H : Heap ν) (p : ν) (hand : Hand) (c : Option ν) : Heap ν :=
  H.modify p fun n => n.setChild hand c

@[simp] theorem modify_self (H : Heap ν) (p : ν) (f : Node ν → Node ν) :
    H.modify p f p = f (H p) :=
  Function.update_self p _ H

@[simp] theorem modify_ne (H : Heap ν) {p q : ν} (f : Node ν → Node ν) (h : q ≠ p) :
    H.modify p f q = H q :=
  Function.update_of_ne h _ H

theorem modify_ne' (H : Heap ν) {p q : ν} (f : Node ν → Node ν) (h : p ≠ q) :
    H.modify p f q = H q := modify_ne H f (Ne.symm h)

@[simp] theorem setChild_self (H : Heap ν) (p : ν) (h : Hand) (c : Option ν) :
    H.setChild p h c p = (H p).setChild h c := modify_self H p _

@[simp] theorem setChild_ne (H : Heap ν) {p q : ν} (h : Hand) (c : Option ν) (hq : q ≠ p) :
    H.setChild p h c q = H q := modify_ne H _ hq

@[simp] theorem setParent_self (H : Heap ν) (p : ν) (c : Option ν) :
    H.setParent p c p = { H p with parent := c } := modify_self H p _

@[simp] theorem setParent_ne (H : Heap ν) {p q : ν} (c : Option ν) (hq : q ≠ p) :
    H.setParent p c q = H q := modify_ne H _ hq

@[simp] theorem setParentOf_some (H : Heap ν) (p : ν) (q : Option ν) :
    H.setParentOf (some p) q = H.setParent p q := rfl

@[simp] theorem setParentOf_none (H : Heap ν) (q : Option ν) : H.setParentOf none q = H := rfl

theorem setParentOf_of_ne (H : Heap ν) {p : Option ν} (q : Option ν) {w : ν} (h : p ≠ some w) :
    H.setParentOf p q w = H w := by
  cases p with
  | none => rfl
  | some p => exact setParent_ne H q fun e => h (e ▸ rfl)

theorem setChild_setParent_comm (H : Heap ν) {p q : ν} (hand : Hand) (c v : Option ν) (h : p ≠ q) :
    (H.setChild p hand c).setParent q v = (H.setParent q v).setChild p hand c := by
  funext y
  by_cases hyp : y = p
  · subst hyp; simp [setChild_self, setParent_ne _ _ h]
  · by_cases hyq : y = q
    · subst hyq; simp [setChild_ne _ _ _ hyp]
    · simp [setChild_ne _ _ _ hyp, setParent_ne _ _ hyq]

@[simp] theorem setColor_self (H : Heap ν) (p : ν) (c : Color) :
    H.setColor p c p = { H p with color := c } := modify_self H p _

@[simp] theorem setColor_ne (H : Heap ν) {p q : ν} (c : Color) (hq : q ≠ p) :
    H.setColor p c q = H q := modify_ne H _ hq

@[simp] theorem setParentColor_self (H : Heap ν) (p : ν) (q : Option ν) (c : Color) :
    H.setParentColor p q c p = { H p with parent := q, color := c } := modify_self H p _

@[simp] theorem setParentColor_ne (H : Heap ν) {p q' : ν} (q : Option ν) (c : Color) (hq : q' ≠ p) :
    H.setParentColor p q c q' = H q' := modify_ne H _ hq

end Heap

variable {ν : Type}

/-- The child links of `H`, followed from `p`, spell `t`. -/
def Rep (H : Heap ν) : Option ν → CTree ν → Prop
  | p, .nil => p = none
  | p, .node c l x r => p = some x ∧ (H x).color = c ∧ Rep H (H x).left l ∧ Rep H (H x).right r

/-- Every node of `t` links back to its parent; the root links to `q`. -/
def Links (H : Heap ν) : Option ν → CTree ν → Prop
  | _, .nil => True
  | q, .node _ l x r => (H x).parent = q ∧ Links H (some x) l ∧ Links H (some x) r

@[simp] theorem rep_nil (H : Heap ν) (p : Option ν) : Rep H p .nil ↔ p = none := Iff.rfl

@[simp] theorem rep_node (H : Heap ν) (p : Option ν) (c : Color) (l : CTree ν) (x : ν)
    (r : CTree ν) : Rep H p (.node c l x r) ↔
      p = some x ∧ (H x).color = c ∧ Rep H (H x).left l ∧ Rep H (H x).right r := Iff.rfl

@[simp] theorem links_nil (H : Heap ν) (q : Option ν) : Links H q .nil ↔ True := Iff.rfl

@[simp] theorem links_node (H : Heap ν) (q : Option ν) (c : Color) (l : CTree ν) (x : ν)
    (r : CTree ν) : Links H q (.node c l x r) ↔
      (H x).parent = q ∧ Links H (some x) l ∧ Links H (some x) r := Iff.rfl

/-- The representation reads only colors and child links of the tree's own nodes. -/
theorem rep_frame {H H' : Heap ν} {p : Option ν} {t : CTree ν} (h : Rep H p t)
    (hf : ∀ x ∈ t.toList, (H' x).color = (H x).color ∧ (H' x).left = (H x).left ∧
      (H' x).right = (H x).right) : Rep H' p t := by
  induction t generalizing p with
  | nil => exact h
  | node c l x r ihl ihr =>
    obtain ⟨rfl, hc, hl, hr⟩ := h
    obtain ⟨hc', hl', hr'⟩ := hf x (by simp)
    refine ⟨rfl, hc'.trans hc, ?_, ?_⟩
    · rw [hl']
      exact ihl hl fun y hy => hf y (by simp [hy])
    · rw [hr']
      exact ihr hr fun y hy => hf y (by simp [hy])

theorem links_frame {H H' : Heap ν} {q : Option ν} {t : CTree ν} (h : Links H q t)
    (hf : ∀ x ∈ t.toList, (H' x).parent = (H x).parent) : Links H' q t := by
  induction t generalizing q with
  | nil => trivial
  | node c l x r ihl ihr =>
    obtain ⟨hx, hl, hr⟩ := h
    exact ⟨(hf x (by simp)).trans hx, ihl hl fun y hy => hf y (by simp [hy]),
      ihr hr fun y hy => hf y (by simp [hy])⟩

theorem rep_frame_outside [DecidableEq ν] {H H' : Heap ν} {p : Option ν} {t : CTree ν}
    (h : Rep H p t) (hf : ∀ x ∈ t.toList, H' x = H x) : Rep H' p t :=
  rep_frame h fun x hx => by simp [hf x hx]

theorem links_frame_outside [DecidableEq ν] {H H' : Heap ν} {q : Option ν} {t : CTree ν}
    (h : Links H q t) (hf : ∀ x ∈ t.toList, H' x = H x) : Links H' q t :=
  links_frame h fun x hx => by simp [hf x hx]

theorem rep_nodeOn {H : Heap ν} {p : Option ν} {hand : Hand} {c : Color} {near far : CTree ν}
    {x : ν} : Rep H p (.nodeOn hand c near x far) ↔
      p = some x ∧ (H x).color = c ∧ Rep H ((H x).child hand) near ∧
        Rep H ((H x).child hand.other) far := by
  cases hand
  · rfl
  · simp only [CTree.nodeOn_right, rep_node, Hand.other_right, Node.child_left, Node.child_right]
    tauto

theorem links_nodeOn {H : Heap ν} {q : Option ν} {hand : Hand} {c : Color} {near far : CTree ν}
    {x : ν} : Links H q (.nodeOn hand c near x far) ↔
      (H x).parent = q ∧ Links H (some x) near ∧ Links H (some x) far := by
  cases hand
  · rfl
  · simp only [CTree.nodeOn_right, links_node]
    tauto

theorem rep_some_mem {H : Heap ν} {z : ν} {t : CTree ν} (h : Rep H (some z) t) : z ∈ t.toList := by
  cases t with
  | nil => simp at h
  | node c l x r =>
    obtain ⟨hx, -⟩ := h
    simp [Option.some.inj hx]

theorem rep_none_iff {H : Heap ν} {p : Option ν} {t : CTree ν} (h : Rep H p t) :
    p = none ↔ t = .nil := by
  cases t with
  | nil => simpa using h
  | node c l x r =>
    obtain ⟨rfl, -⟩ := h
    simp

theorem rep_ptr_eq {H H' : Heap ν} {p p' : Option ν} {t : CTree ν} (h : Rep H p t) (h' : Rep H' p' t) :
    p = p' := by
  cases t with
  | nil => exact h.trans h'.symm
  | node c l x r => exact h.1.trans h'.1.symm

theorem rep_unique {H : Heap ν} {p : Option ν} {t t' : CTree ν} (h : Rep H p t) (h' : Rep H p t') :
    t = t' := by
  induction t generalizing p t' with
  | nil => exact ((rep_none_iff h').1 h).symm
  | node c l x r ihl ihr =>
    obtain ⟨rfl, hc, hl, hr⟩ := h
    cases t' with
    | nil => simp at h'
    | node c' l' x' r' =>
      obtain ⟨hx, hc', hl', hr'⟩ := h'
      obtain rfl := Option.some.inj hx
      rw [← hc, hc', ihl hl hl', ihr hr hr']

/-- Two heaps that hold one tree below one parent agree on its nodes: the tree fixes
    every field of their records. -/
theorem holds_unique {H H' : Heap ν} {q p : Option ν} {t : CTree ν} (hr : Rep H p t)
    (hr' : Rep H' p t) (hl : Links H q t) (hl' : Links H' q t) : ∀ y ∈ t.toList, H' y = H y := by
  induction t generalizing p q with
  | nil => simp
  | node c l x r ihl ihr =>
    obtain ⟨rfl, hc, hrl, hrr⟩ := hr
    obtain ⟨-, hc', hrl', hrr'⟩ := hr'
    intro y hy
    simp only [CTree.toList_node, List.mem_append, List.mem_cons] at hy
    rcases hy with hy | rfl | hy
    · exact ihl hrl (rep_ptr_eq hrl' hrl ▸ hrl') hl.2.1 hl'.2.1 y hy
    · exact Node.ext (hl'.1.trans hl.1.symm) (hc'.trans hc.symm) (rep_ptr_eq hrl' hrl)
        (rep_ptr_eq hrr' hrr)
    · exact ihr hrr (rep_ptr_eq hrr' hrr ▸ hrr') hl.2.2 hl'.2.2 y hy

def Heap.mirror (H : Heap ν) : Heap ν := fun x => (H x).mirror

@[simp] theorem Heap.mirror_apply (H : Heap ν) (x : ν) : H.mirror x = (H x).mirror := rfl

theorem rep_mirror {H : Heap ν} {p : Option ν} {t : CTree ν} (h : Rep H p t) :
    Rep H.mirror p t.mirror := by
  induction t generalizing p with
  | nil => exact h
  | node c l x r ihl ihr =>
    obtain ⟨rfl, hc, hl, hr⟩ := h
    exact ⟨rfl, hc, ihr hr, ihl hl⟩

theorem links_mirror {H : Heap ν} {q : Option ν} {t : CTree ν} (h : Links H q t) :
    Links H.mirror q t.mirror := by
  induction t generalizing q with
  | nil => trivial
  | node c l x r ihl ihr =>
    obtain ⟨hp, hl, hr⟩ := h
    exact ⟨hp, ihr hr, ihl hl⟩

end Nanos.NodeHeap
