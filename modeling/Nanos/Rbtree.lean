import Nanos.NodeHeap

set_option autoImplicit false
set_option linter.dupNamespace false

/-!
# `runtime/rbtree.c`: the pointer-level tree

The nodes of a tree are records in a heap of `Node ν`: the `parent_color` word
split into its parent pointer and its color bit, and `c[2]` as two child links.
Each function below follows the C code statement by statement. A failed
`assert` or the dereference of a null pointer yields `none`. The recursive
functions take a fuel argument; `rbtreeInsertNode` and `rbtreeRemoveByKey`
give them `t->count + 1`, which bounds the depth of the recursion of the C
code once `t->count` is the number of nodes.
-/

namespace Nanos.Rbtree
open ColorTree NodeHeap

/-- `struct rbtree`: the root and the node count. The comparator is the `key`
    argument of the functions below; `print_key` and the heap field are unused. -/
structure Rbtree (ν : Type) where
  root : Option ν
  count : ℕ
deriving DecidableEq, Repr

section compare
variable {ν κ : Type} [LinearOrder κ] (key : ν → κ)

/-- `compare_nodes(t, a, b)`, with the comparator comparing node keys. -/
def compareNodes (a b : ν) : Ordering := compare (key a) (key b)

@[simp] theorem compareNodes_lt_iff {a b : ν} : compareNodes key a b = .lt ↔ key a < key b :=
  compare_lt_iff_lt

@[simp] theorem compareNodes_eq_iff {a b : ν} : compareNodes key a b = .eq ↔ key a = key b :=
  compare_eq_iff_eq

@[simp] theorem compareNodes_gt_iff {a b : ν} : compareNodes key a b = .gt ↔ key b < key a :=
  compare_gt_iff_gt

end compare

variable {ν κ : Type} [DecidableEq ν] [LinearOrder κ]

/-- `is_red(n)`: a non-null node whose color bit is red. -/
def isRed (H : Heap ν) : Option ν → Bool
  | some n => decide ((H n).color = .red)
  | none => false

def leftOf (H : Heap ν) (n : Option ν) : Option ν := n.bind fun y => (H y).left

def initRbtree : Rbtree ν := { root := none, count := 0 }

/-- `init_rbnode(n)`: `parent_color = 0` (no parent, black) and no children. -/
def initRbnode (H : Heap ν) (n : ν) : Heap ν :=
  H.modify n fun _ => { parent := none, color := .black, left := none, right := none }

/-- `rotate(hand, h)`: the child of `h` on the other hand takes the place of `h`. -/
def rotate (H : Heap ν) (hand : Hand) (h : ν) : Option (Heap ν × ν) := do
  let oh := hand.other
  let x ← (H h).child oh
  let xh := (H x).child hand
  let H := H.setChild h oh xh
  let H := H.setParentOf xh (some h)
  let H := H.setChild x hand (some h)
  let H := H.setParentColor x (H h).parent (H h).color
  let H := H.setParentColor h (some x) .red
  pure (H, x)

def colorFlip (H : Heap ν) (n : ν) : Option (Heap ν) := do
  let H := H.setColor n (H n).color.flip
  let l ← (H n).left
  let H := H.setColor l (H l).color.flip
  let r ← (H n).right
  pure (H.setColor r (H r).color.flip)

/-- `check_move_red(h, hand)`: before descending on `hand`, make sure that the
    child there, or its left child, is red. -/
def checkMoveRed (H : Heap ν) (h : ν) (hand : Hand) : Option (Heap ν × ν) :=
  let oh := hand.other
  let hh := (H h).child hand
  if hh.isNone || (!isRed H hh && !isRed H (leftOf H hh)) then do
    let H ← colorFlip H h
    let ho := (H h).child oh
    if ho.isNone || !isRed H (leftOf H ho) then pure (H, h)
    else do
      let H ← (if hand = .left then do
          let r ← (H h).right
          let (H, r) ← rotate H .right r
          pure (H.setChild h .right (some r))
        else pure H)
      let (H, h) ← rotate H hand h
      let H ← colorFlip H h
      pure (H, h)
  else pure (H, h)

/-- `fix_up(h)`: restore the left-leaning shape on the way back up. -/
def fixUp (H : Heap ν) (h : ν) : Option (Heap ν × ν) := do
  let (H, h) ← (if !isRed H (H h).left && isRed H (H h).right then rotate H .left h
    else pure (H, h))
  let (H, h) ← (if isRed H (H h).left && isRed H (leftOf H (H h).left) then rotate H .right h
    else pure (H, h))
  if isRed H (H h).left && isRed H (H h).right then do
    let H ← colorFlip H h
    pure (H, h)
  else pure (H, h)

/-- `remove_min(h, &removed)`: the new root of the subtree and the detached
    minimum node. -/
def removeMin : ℕ → Heap ν → ν → Option (Heap ν × Option ν × ν)
  | 0, _, _ => none
  | fuel + 1, H, h =>
    match (H h).left with
    | none => pure (H, none, h)
    | some _ => do
      let (H, h) ← checkMoveRed H h .left
      let l ← (H h).left
      let (H, l, m) ← removeMin fuel H l
      let H := H.setChild h .left l
      let (H, h) ← fixUp H h
      pure (H, some h, m)

section
variable (key : ν → κ)

/-- `remove_internal(t, h, k, &result)`: the new root of the subtree and the
    final value of `*result`. -/
def removeInternal : ℕ → Heap ν → Option ν → ν → Option (Heap ν × Option ν × Bool)
  | _, H, none, _ => pure (H, none, false)
  | 0, _, some _, _ => none
  | fuel + 1, H, some h, k =>
    if compareNodes key k h = .lt then
      match (H h).left with
      | none => pure (H, some h, false)
      | some _ => do
        let (H, h) ← checkMoveRed H h .left
        let (H, l, res) ← removeInternal fuel H (H h).left k
        let H := H.setChild h .left l
        let (H, h) ← fixUp H h
        pure (H, some h, res)
    else if compareNodes key k h = .gt ∧ (H h).right = none then pure (H, some h, false)
    else do
      let (H, h) ← (if isRed H (H h).left then rotate H .right h else pure (H, h))
      if compareNodes key k h = .eq ∧ (H h).left = none ∧ (H h).right = none then
        pure (H, none, true)
      else do
        let (H, h) ← checkMoveRed H h .right
        if compareNodes key k h ≠ .eq then
          match (H h).right with
          | none => pure (H, some h, false)
          | some r => do
            let (H, r, res) ← removeInternal fuel H (some r) k
            let H := H.setChild h .right r
            let (H, h) ← fixUp H h
            pure (H, some h, res)
        else do
          -- replace the match with the minimum of its right subtree
          let r ← (H h).right
          let (H, rnew, rmin) ← removeMin fuel H r
          let H := H.setParentOf rnew (some rmin)
          let H := H.setParentColor rmin (H h).parent (H h).color
          if (H rmin).left ≠ none then none
          else do
            let H := H.setParentOf (H h).left (some rmin)
            let H := H.setChild rmin .left (H h).left
            let H := H.setChild rmin .right rnew
            let H := match (H h).parent with
              | some p => H.setChild p (if (H p).left = some h then .left else .right) (some rmin)
              | none => H
            let (H, h) ← fixUp H rmin
            pure (H, some h, true)

def rbtreeRemoveByKey (H : Heap ν) (t : Rbtree ν) (k : ν) : Option (Heap ν × Rbtree ν × Bool) := do
  let (H, root, result) ← removeInternal key (t.count + 1) H t.root k
  let H := match root with
    | some r => H.setColor r .black
    | none => H
  if result ∧ t.count = 0 then none
  else pure (H, { root := root, count := if result then t.count - 1 else t.count }, result)

/-- `insert_node_internal(t, h, n, &result)`: the new root of the subtree and
    the final value of `*result`. -/
def insertNodeInternal : ℕ → Heap ν → ν → ν → Option (Heap ν × ν × Bool)
  | 0, _, _, _ => none
  | fuel + 1, H, h, n => do
    let (H, res) ← (if compareNodes key n h ≠ .eq then
        let hand := if compareNodes key n h = .lt then Hand.left else Hand.right
        match (H h).child hand with
        | none => pure ((H.setChild h hand (some n)).setParent n (some h), true)
        | some hh => (insertNodeInternal fuel H hh n).map fun (H, hh, res) =>
            (H.setChild h hand (some hh), res)
      else pure (H, false))
    let (H, h) ← fixUp H h
    pure (H, h, res)

def rbtreeInsertNode (H : Heap ν) (t : Rbtree ν) (n : ν) : Option (Heap ν × Rbtree ν × Bool) := do
  let (H, root, result) ← (match t.root with
    | none => pure (H, n, true)
    | some r => insertNodeInternal key (t.count + 1) (H.setColor n .red) r n)
  let H := H.setColor root .black
  pure (H, { root := some root, count := if result then t.count + 1 else t.count }, result)

end
end Nanos.Rbtree
