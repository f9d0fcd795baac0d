import Mathlib.Data.List.Perm.Basic

set_option autoImplicit false

/-!
# Finite maps as association lists under an equivalence

A map is a list of pairs whose keys are compared by `eqv`, an equivalence given as a boolean
function. `Distinct` says no two keys are equivalent; then at most one pair answers a key, and
`lookup` depends on the pairs only, not on their order (`lookup_perm`). `erase`, `update` and
appending a pair whose key is not there are the map's updates, and each keeps `Distinct`.
-/

namespace Nanos.AssocMap

variable {α β : Type} (eqv : α → α → Bool)

/-- The value of the first pair whose key is equivalent to `c`. -/
def lookup (m : List (α × β)) (c : α) : Option β := (m.find? fun p => eqv p.1 c).map Prod.snd

def Distinct (m : List (α × β)) : Prop := m.Pairwise fun a b => eqv a.1 b.1 = false

def erase (m : List (α × β)) (c : α) : List (α × β) := m.filter fun p => !eqv p.1 c

/-- The map with the value of the pairs whose key is equivalent to `c` set to `v`; the keys stay. -/
def update (m : List (α × β)) (c : α) (v : β) : List (α × β) :=
  m.map fun p => if eqv p.1 c then (p.1, v) else p

variable {eqv}

theorem lookup_eq_none_iff {m : List (α × β)} {c : α} :
    lookup eqv m c = none ↔ ∀ p ∈ m, eqv p.1 c = false := by
  simp [lookup, List.find?_eq_none]

section Equiv
variable (he : Equivalence fun a b => eqv a b = true)
include he

theorem eqv_trans_symm {a b c : α} (ha : eqv a c = true) (hb : eqv b c = true) : eqv a b = true :=
  he.trans ha (he.symm hb)

/-- In a map with distinct keys, two pairs whose keys are equivalent to one key are one pair. -/
theorem Distinct.eq_of_eqv {m : List (α × β)} (hd : Distinct eqv m) {a b : α × β} {c : α}
    (ha : a ∈ m) (hb : b ∈ m) (hac : eqv a.1 c = true) (hbc : eqv b.1 c = true) : a = b := by
  induction m with
  | nil => simp at ha
  | cons x m ih =>
    rw [Distinct, List.pairwise_cons] at hd
    rcases List.mem_cons.mp ha with rfl | ha' <;> rcases List.mem_cons.mp hb with rfl | hb'
    · rfl
    · have := hd.1 b hb'
      rw [eqv_trans_symm he hac hbc] at this
      exact Bool.noConfusion this
    · have := hd.1 a ha'
      rw [eqv_trans_symm he hbc hac] at this
      exact Bool.noConfusion this
    · exact ih hd.2 ha' hb'

theorem lookup_eq_some_iff {m : List (α × β)} (hd : Distinct eqv m) {c : α} {v : β} :
    lookup eqv m c = some v ↔ ∃ a, (a, v) ∈ m ∧ eqv a c = true := by
  constructor
  · intro h
    obtain ⟨p, hp, rfl⟩ := Option.map_eq_some_iff.mp h
    have hc := List.find?_some hp
    exact ⟨p.1, List.mem_of_find?_eq_some hp, hc⟩
  · rintro ⟨a, hm, hc⟩
    obtain ⟨p, hp⟩ := Option.isSome_iff_exists.mp
      (List.find?_isSome.mpr ⟨(a, v), hm, hc⟩ : (m.find? fun p => eqv p.1 c).isSome)
    have hpc := List.find?_some hp
    have heq := hd.eq_of_eqv he (List.mem_of_find?_eq_some hp) hm hpc hc
    simp [lookup, hp, heq]

theorem Distinct.perm {m m' : List (α × β)} (hd : Distinct eqv m) (hp : m.Perm m') :
    Distinct eqv m' := hp.pairwise hd fun h => by
  rw [← Bool.not_eq_true] at h ⊢
  exact fun h' => h (he.symm h')

/-- The lookup of a map with distinct keys does not depend on the order of its pairs. -/
theorem lookup_perm {m m' : List (α × β)} (hd : Distinct eqv m) (hp : m.Perm m') (c : α) :
    lookup eqv m c = lookup eqv m' c := by
  have hd' := hd.perm he hp
  cases h : lookup eqv m c with
  | none =>
    symm
    rw [lookup_eq_none_iff] at h ⊢
    exact fun p hm => h p (hp.mem_iff.mpr hm)
  | some v =>
    symm
    obtain ⟨a, hm, hc⟩ := (lookup_eq_some_iff he hd).mp h
    exact (lookup_eq_some_iff he hd').mpr ⟨a, hp.mem_iff.mp hm, hc⟩

/-- In a map with distinct keys, the pairs around one whose key is equivalent to `c` have keys
    that are not. -/
theorem Distinct.not_eqv {A B : List (α × β)} {x : α × β} (hd : Distinct eqv (A ++ x :: B)) {c : α}
    (hx : eqv x.1 c = true) : ∀ y ∈ A ++ B, eqv y.1 c = false := by
  rw [Distinct, List.pairwise_append, List.pairwise_cons] at hd
  intro y hy
  rw [← Bool.not_eq_true]
  intro hy'
  rcases List.mem_append.mp hy with hA | hB
  · have := hd.2.2 y hA x List.mem_cons_self
    rw [eqv_trans_symm he hy' hx] at this
    exact Bool.noConfusion this
  · have := hd.2.1.1 y hB
    rw [eqv_trans_symm he hx hy'] at this
    exact Bool.noConfusion this

theorem lookup_split {A B : List (α × β)} {x : α × β} (hd : Distinct eqv (A ++ x :: B)) {c : α}
    (hx : eqv x.1 c = true) : lookup eqv (A ++ x :: B) c = some x.2 :=
  (lookup_eq_some_iff he hd).mpr ⟨x.1, by simp, hx⟩

theorem erase_split {A B : List (α × β)} {x : α × β} (hd : Distinct eqv (A ++ x :: B)) {c : α}
    (hx : eqv x.1 c = true) : erase eqv (A ++ x :: B) c = A ++ B := by
  have hn := hd.not_eqv he hx
  rw [erase, List.filter_append, List.filter_cons, hx, if_neg (by simp),
    List.filter_eq_self.mpr (fun y hy => by simp [hn y (List.mem_append_left B hy)]),
    List.filter_eq_self.mpr (fun y hy => by simp [hn y (List.mem_append_right A hy)])]

theorem update_split {A B : List (α × β)} {x : α × β} (hd : Distinct eqv (A ++ x :: B)) {c : α}
    (hx : eqv x.1 c = true) (v : β) : update eqv (A ++ x :: B) c v = A ++ (x.1, v) :: B := by
  have hn := hd.not_eqv he hx
  have hA : A.map (fun p => if eqv p.1 c then (p.1, v) else p) = A :=
    (List.map_congr_left fun y hy => by simp [hn y (List.mem_append_left B hy)]).trans (List.map_id A)
  have hB : B.map (fun p => if eqv p.1 c then (p.1, v) else p) = B :=
    (List.map_congr_left fun y hy => by simp [hn y (List.mem_append_right A hy)]).trans (List.map_id B)
  rw [update, List.map_append, List.map_cons, hA, hB, if_pos hx]

end Equiv

theorem erase_of_lookup_eq_none {m : List (α × β)} {c : α} (hc : lookup eqv m c = none) :
    erase eqv m c = m :=
  List.filter_eq_self.mpr fun p hp => by simp [lookup_eq_none_iff.mp hc p hp]

theorem Distinct.erase {m : List (α × β)} (hd : Distinct eqv m) (c : α) :
    Distinct eqv (erase eqv m c) := List.Pairwise.filter _ hd

theorem Distinct.update {m : List (α × β)} (hd : Distinct eqv m) (c : α) (v : β) :
    Distinct eqv (update eqv m c v) := by
  unfold Distinct AssocMap.update
  rw [List.pairwise_map]
  refine hd.imp fun h => ?_
  split <;> split <;> exact h

theorem Distinct.append_of_lookup {m : List (α × β)} (hd : Distinct eqv m) {c : α} (v : β)
    (hc : lookup eqv m c = none) : Distinct eqv (m ++ [(c, v)]) := by
  rw [Distinct, List.pairwise_append]
  refine ⟨hd, List.pairwise_singleton _ _, ?_⟩
  intro a ha b hb
  rw [List.mem_singleton] at hb
  subst hb
  exact lookup_eq_none_iff.mp hc a ha

end Nanos.AssocMap
