import Nanos.Rbtree

set_option autoImplicit false

/-!
# The algorithm of `runtime/rbtree.c` on colored trees

The same functions as `Nanos.Rbtree`, on `CTree ν` instead of a heap: the
values are the trees the child links spell, `none` marks a failed `assert`.
These are the definitions the balance and order invariants are proved about;
`Nanos.RbtreeRefinement` shows that the heap functions compute them.
-/

namespace Nanos.RbtreeShape
open ColorTree CTree
open Rbtree (compareNodes)

variable {ν κ : Type} [LinearOrder κ]

def rotate : Hand → CTree ν → Option (CTree ν)
  | .left, node c a h (node _ b x d) => some (node c (node .red a h b) x d)
  | .right, node c (node _ a x b) h d => some (node c a x (node .red b h d))
  | _, _ => none

def colorFlip : CTree ν → Option (CTree ν)
  | node c (node cl a x b) h (node cr d y e) =>
    some (node c.flip (node cl.flip a x b) h (node cr.flip d y e))
  | _ => none

def checkMoveRed (t : CTree ν) (hand : Hand) : Option (CTree ν) :=
  let hh := t.child hand
  if hh.isNil || (!hh.isRed && !(hh.child .left).isRed) then do
    let t ← colorFlip t
    let ho := t.child hand.other
    if ho.isNil || !(ho.child .left).isRed then pure t
    else do
      let t ← (if hand = .left then (rotate .right (t.child .right)).map (t.setChild .right)
        else pure t)
      let t ← rotate hand t
      colorFlip t
  else pure t

def fixUp (t : CTree ν) : Option (CTree ν) := do
  let t ← (if !(t.child .left).isRed && (t.child .right).isRed then rotate .left t else pure t)
  let t ← (if (t.child .left).isRed && ((t.child .left).child .left).isRed then rotate .right t
    else pure t)
  if (t.child .left).isRed && (t.child .right).isRed then colorFlip t else pure t

theorem rotate_toList {hand : Hand} {t t' : CTree ν} (h : rotate hand t = some t') :
    t'.toList = t.toList := by
  unfold rotate at h
  split at h <;> cases h <;> simp

theorem colorFlip_toList {t t' : CTree ν} (h : colorFlip t = some t') : t'.toList = t.toList := by
  unfold colorFlip at h
  split at h <;> cases h
  simp

theorem setChild_toList_of_child (hand : Hand) {t s : CTree ν} (hs : s.toList = (t.child hand).toList) :
    (t.setChild hand s).toList = t.toList := by
  cases t with
  | nil => cases hand <;> rfl
  | node c l x r => cases hand <;> simp_all

theorem checkMoveRed_toList {t t' : CTree ν} {hand : Hand} (h : checkMoveRed t hand = some t') :
    t'.toList = t.toList := by
  unfold checkMoveRed at h
  simp only at h
  split at h
  · obtain ⟨t₁, h₁, h⟩ := Option.bind_eq_some_iff.1 h
    have e₁ := colorFlip_toList h₁
    split at h
    · cases h; exact e₁
    · obtain ⟨t₂, h₂, h⟩ := Option.bind_eq_some_iff.1 h
      obtain ⟨t₃, h₃, h⟩ := Option.bind_eq_some_iff.1 h
      have e₂ : t₂.toList = t₁.toList := by
        split at h₂
        · obtain ⟨r, hr, rfl⟩ := Option.map_eq_some_iff.1 h₂
          exact setChild_toList_of_child .right (rotate_toList hr)
        · cases h₂; rfl
      rw [colorFlip_toList h, rotate_toList h₃, e₂, e₁]
  · cases h; rfl

theorem fixUp_toList {t t' : CTree ν} (h : fixUp t = some t') : t'.toList = t.toList := by
  unfold fixUp at h
  obtain ⟨t₁, h₁, h⟩ := Option.bind_eq_some_iff.1 h
  obtain ⟨t₂, h₂, h⟩ := Option.bind_eq_some_iff.1 h
  have e₁ : t₁.toList = t.toList := by
    split at h₁
    · exact rotate_toList h₁
    · cases h₁; rfl
  have e₂ : t₂.toList = t₁.toList := by
    split at h₂
    · exact rotate_toList h₂
    · cases h₂; rfl
  have e₃ : t'.toList = t₂.toList := by
    split at h
    · exact colorFlip_toList h
    · cases h; rfl
  rw [e₃, e₂, e₁]

theorem rotate_ne_nil {hand : Hand} {t t' : CTree ν} (h : rotate hand t = some t') : t' ≠ nil := by
  unfold rotate at h
  split at h <;> cases h <;> simp

def removeMin (t : CTree ν) : Option (CTree ν × ν) :=
  match t with
  | nil => none
  | node c l x r =>
    if l.isNil then some (nil, x)
    else match _hc : checkMoveRed (node c l x r) .left with
      | none => none
      | some t' => do
        let (l', m) ← removeMin (t'.child .left)
        let t'' ← fixUp (t'.setChild .left l')
        pure (t'', m)
termination_by t.size
decreasing_by exact size_child_lt_of_toList .left _ (checkMoveRed_toList _hc) (by simp)

section
variable (key : ν → κ)

def removeInternal (k : ν) (t : CTree ν) : Option (CTree ν × Bool) :=
  match t with
  | nil => some (nil, false)
  | node c l x r =>
    if compareNodes key k x = .lt then
      if l.isNil then some (node c l x r, false)
      else match _hc : checkMoveRed (node c l x r) .left with
        | none => none
        | some t' => do
          let (l', res) ← removeInternal k (t'.child .left)
          let t'' ← fixUp (t'.setChild .left l')
          pure (t'', res)
    else if compareNodes key k x = .gt ∧ r.isNil then some (node c l x r, false)
    else match _hr : (if l.isRed then rotate .right (node c l x r) else some (node c l x r)) with
      | none => none
      | some nil => none
      | some (node c₁ l₁ x₁ r₁) =>
        if compareNodes key k x₁ = .eq ∧ l₁.isNil ∧ r₁.isNil then some (nil, true)
        else match _hm : checkMoveRed (node c₁ l₁ x₁ r₁) .right with
          | none => none
          | some nil => none
          | some (node c₂ l₂ x₂ r₂) =>
            if compareNodes key k x₂ ≠ .eq then
              if r₂.isNil then some (node c₂ l₂ x₂ r₂, false)
              else do
                let (r', res) ← removeInternal k r₂
                let t₃ ← fixUp (node c₂ l₂ x₂ r')
                pure (t₃, res)
            else if r₂.isNil then none
            else do
              -- the minimum of the right subtree takes the place of the match
              let (rnew, rmin) ← removeMin r₂
              let t₃ ← fixUp (node c₂ l₂ rmin rnew)
              pure (t₃, true)
termination_by t.size
decreasing_by
  -- the match hypotheses `_hc`, `_hr` and `_hm` are read only here
  · exact size_child_lt_of_toList .left _ (checkMoveRed_toList _hc) (by simp)
  · have e₁ : (node c₁ l₁ x₁ r₁).toList = (node c l x r).toList := by
      split at _hr
      · exact rotate_toList _hr
      · cases _hr; rfl
    have e₂ := (checkMoveRed_toList _hm).trans e₁
    exact size_child_lt_of_toList .right (node c l x r) e₂ (by simp)

/-- `rbtree_remove_by_key(t, k)` on the tree the root spells. -/
def rbtreeRemoveByKey (t : CTree ν) (k : ν) : Option (CTree ν × Bool) := do
  let (t, res) ← removeInternal key k t
  pure (t.blacken, res)

/-- `insert_node_internal(t, h, n, &result)`, the new node `n` being red. -/
def insertNodeInternal (n : ν) : CTree ν → Option (CTree ν × Bool)
  | nil => none
  | node c l x r => do
    let (t, res) ← (if compareNodes key n x = .lt then
        if l.isNil then pure (node c (node .red nil n nil) x r, true)
        else (insertNodeInternal n l).map fun (l', res) => (node c l' x r, res)
      else if compareNodes key n x = .gt then
        if r.isNil then pure (node c l x (node .red nil n nil), true)
        else (insertNodeInternal n r).map fun (r', res) => (node c l x r', res)
      else pure (node c l x r, false))
    let t ← fixUp t
    pure (t, res)

/-- `rbtree_insert_node(t, n)` on the tree the root spells. -/
def rbtreeInsertNode (t : CTree ν) (n : ν) : Option (CTree ν × Bool) := do
  let (t, res) ← (match t with
    | nil => pure (node .black nil n nil, true)
    | node .. => insertNodeInternal key n t)
  pure (t.blacken, res)

end
end Nanos.RbtreeShape
