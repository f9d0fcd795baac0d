import Nanos.AssocMap
import Mathlib.Algebra.Group.Nat.Defs

set_option autoImplicit false

/-!
# `runtime/table.c`: hash tables

A table keeps a power of two of chains; an entry holds the value, the key of its element and the
element, in chain `position(buckets, key)`. A new entry goes at the end of its chain, and when the
count is above the number of buckets `resize_table` doubles them. Every `allocate` succeeds.

The table refines an association list under `equals_function` (`Rep`): every call answers as the
map does (`call_rep`, `table_run`), given that `equals_function` is an equivalence and equal
elements have equal keys. `table_set_noreplace` stores even `EMPTY`, so the map may hold it.
-/

namespace Nanos.Tables
open AssocMap

/-- `struct entry`, without its `next` link: a chain is a list. -/
structure Entry (α : Type) where
  v : ℕ
  k : ℕ
  c : α
  deriving DecidableEq, Repr

/-- The fields of `struct table` its calls read and write. -/
structure Table (α : Type) where
  buckets : ℕ
  count : ℕ
  entries : List (List (Entry α))
  deriving DecidableEq, Repr

def empty : ℕ := 0

def tableMaxBuckets : ℕ := 131072

def position (buckets x : ℕ) : ℕ := x &&& (buckets - 1)

def pointerEqual (a b : ℕ) : Bool := a == b

def identityKey (a : ℕ) : ℕ := a

section Model
variable {α : Type} (keyFunction : α → ℕ) (equalsFunction : α → α → Bool)

/-- `allocate_table`: four empty buckets. -/
def allocateTable : Table α := ⟨4, 0, List.replicate 4 []⟩

/-- The test every loop makes of an entry: `(e->k == k) && t->equals_function(e->c, c)`. -/
def entryMatches (k : ℕ) (c : α) (e : Entry α) : Bool := e.k == k && equalsFunction e.c c

def chain (t : Table α) (p : ℕ) : List (Entry α) := t.entries.getD p []

def tableFind (t : Table α) (c : α) : ℕ :=
  let k := keyFunction c
  match (chain t (position t.buckets k)).find? (entryMatches equalsFunction k c) with
  | some i => i.v
  | none => empty

/-- One step of `resize_table`: push entry `j` onto the head of its new chain. -/
def rehash (buckets : ℕ) (nentries : List (List (Entry α))) (j : Entry α) : List (List (Entry α)) :=
  nentries.modify (position buckets j.k) (j :: ·)

def resizeTable (t : Table α) (buckets : ℕ) : Table α :=
  let nentries := ((List.range t.buckets).flatMap (chain t)).foldl (rehash buckets)
    (List.replicate buckets [])
  { t with entries := nentries, buckets := buckets }

/-- `table_insert_internal`, with `e` the end of chain `p`: the count is tested before it is
    incremented. -/
def tableInsertInternal (t : Table α) (k p : ℕ) (c : α) (v : ℕ) : Table α :=
  let t' := { t with entries := t.entries.modify p (· ++ [⟨v, k, c⟩]), count := t.count + 1 }
  if t.count > t.buckets ∧ t.buckets ≤ tableMaxBuckets / 2 then resizeTable t' (t.buckets * 2)
  else t'

/-- The loop of `table_set` over a chain: the chain after it, or `none` when no entry matches. -/
def setChain (k : ℕ) (c : α) (v : ℕ) : List (Entry α) → Option (List (Entry α))
  | [] => none
  | e :: rest =>
    if entryMatches equalsFunction k c e then some (if v = empty then rest else { e with v := v } :: rest)
    else (setChain k c v rest).map (e :: ·)

/-- `table_set`: `EMPTY` removes the entry. -/
def tableSet (t : Table α) (c : α) (v : ℕ) : Table α :=
  let k := keyFunction c
  let p := position t.buckets k
  match setChain equalsFunction k c v (chain t p) with
  | some ch => { t with entries := t.entries.set p ch, count := if v = empty then t.count - 1 else t.count }
  | none => if v ≠ empty then tableInsertInternal t k p c v else t

def tableSetNoreplace (t : Table α) (c : α) (v : ℕ) : Bool × Table α :=
  let k := keyFunction c
  let p := position t.buckets k
  if (chain t p).any (entryMatches equalsFunction k c) then (false, t)
  else (true, tableInsertInternal t k p c v)

/-- The loop of `table_remove` over a chain: the value removed and the chain after it. -/
def removeChain (k : ℕ) (c : α) : List (Entry α) → Option (ℕ × List (Entry α))
  | [] => none
  | e :: rest =>
    if entryMatches equalsFunction k c e then some (e.v, rest)
    else (removeChain k c rest).map fun r => (r.1, e :: r.2)

/-- `table_remove`: the value removed, `EMPTY` when there is none. -/
def tableRemove (t : Table α) (c : α) : ℕ × Table α :=
  let k := keyFunction c
  let p := position t.buckets k
  match removeChain equalsFunction k c (chain t p) with
  | some (v, ch) => (v, { t with entries := t.entries.set p ch, count := t.count - 1 })
  | none => (empty, t)

def tableClear (t : Table α) : Table α := { t with entries := List.replicate t.buckets [], count := 0 }

/-! ## The map a table holds -/

def pair (e : Entry α) : α × ℕ := (e.c, e.v)

/-- The element and value of every entry, chain by chain. -/
def contents (t : Table α) : List (α × ℕ) := t.entries.flatten.map pair

def mapFind (m : List (α × ℕ)) (c : α) : ℕ := (lookup equalsFunction m c).getD empty

/-- `table_set` on the map: `EMPTY` erases, another value updates or adds. -/
def mapSet (m : List (α × ℕ)) (c : α) (v : ℕ) : List (α × ℕ) :=
  if v = empty then erase equalsFunction m c
  else if (lookup equalsFunction m c).isSome then update equalsFunction m c v else m ++ [(c, v)]

def mapSetNoreplace (m : List (α × ℕ)) (c : α) (v : ℕ) : Bool × List (α × ℕ) :=
  if (lookup equalsFunction m c).isSome then (false, m) else (true, m ++ [(c, v)])

def mapRemove (m : List (α × ℕ)) (c : α) : ℕ × List (α × ℕ) :=
  ((lookup equalsFunction m c).getD empty, erase equalsFunction m c)

/-- The table holds the map: a power of two of buckets, every entry in the chain of its key's
    position under the key of its element, and the elements and values of the entries those of
    the map, whose elements are not equal to one another. -/
structure Rep (t : Table α) (m : List (α × ℕ)) : Prop where
  pow : ∃ n, t.buckets = 2 ^ n
  size : t.entries.length = t.buckets
  placed : ∀ p, ∀ e ∈ chain t p, position t.buckets e.k = p
  keyed : ∀ e ∈ t.entries.flatten, e.k = keyFunction e.c
  perm : (contents t).Perm m
  distinct : Distinct equalsFunction m
  count : t.count = m.length

end Model

/-! ## Chains -/

theorem position_lt {B : ℕ} (h : ∃ n, B = 2 ^ n) (x : ℕ) : position B x < B := by
  obtain ⟨n, rfl⟩ := h
  rw [position, Nat.and_two_pow_sub_one_eq_mod]
  exact Nat.mod_lt _ (Nat.two_pow_pos n)

section Lists
variable {β : Type}

theorem flatten_perm_eraseIdx (l : List (List β)) {q : ℕ} (hq : q < l.length) :
    l.flatten.Perm (l[q] ++ (l.eraseIdx q).flatten) := by
  simpa using (List.getElem_cons_eraseIdx_perm hq).flatten.symm

theorem flatten_set_perm (l : List (List β)) {q : ℕ} (hq : q < l.length) (x : List β) :
    (l.set q x).flatten.Perm (x ++ (l.eraseIdx q).flatten) := by
  simpa using (List.set_perm_cons_eraseIdx hq x).flatten

theorem modify_eq_set (l : List (List β)) {q : ℕ} (hq : q < l.length) (f : List β → List β) :
    l.modify q f = l.set q (f l[q]) := by
  rw [List.modify_eq_set]
  simp [hq]

theorem getD_set (l : List (List β)) (q r : ℕ) (x : List β) (hq : q < l.length) :
    (l.set q x).getD r [] = if q = r then x else l.getD r [] := by
  simp only [List.getD_eq_getElem?_getD, List.getElem?_set]
  split
  · simp [*]
  · rfl

theorem getD_replicate_nil (n q : ℕ) : (List.replicate n ([] : List β)).getD q [] = [] := by
  rw [List.getD_eq_getElem?_getD, List.getElem?_replicate]
  split <;> rfl

end Lists

section Rep
variable {α : Type} {keyFunction : α → ℕ} {equalsFunction : α → α → Bool} {t : Table α}
  {m : List (α × ℕ)}

theorem chain_eq {p : ℕ} (hp : p < t.entries.length) : chain t p = t.entries[p] := by
  simp [chain, hp]

theorem mem_flatten_of_mem_chain {e : Entry α} {p : ℕ} (h : e ∈ chain t p) : e ∈ t.entries.flatten := by
  unfold chain at h
  rw [List.getD_eq_getElem?_getD] at h
  cases hp : t.entries[p]? with
  | none => simp [hp] at h
  | some l => exact List.mem_flatten.mpr ⟨l, List.mem_of_getElem? hp, by simpa [hp] using h⟩

theorem Rep.mem_chain_position (h : Rep keyFunction equalsFunction t m) {e : Entry α}
    (he : e ∈ t.entries.flatten) : e ∈ chain t (position t.buckets e.k) := by
  obtain ⟨l, hl, hel⟩ := List.mem_flatten.mp he
  obtain ⟨q, hq, rfl⟩ := List.mem_iff_getElem.mp hl
  have hc : e ∈ chain t q := by rwa [chain_eq hq]
  rwa [h.placed q e hc]

theorem Rep.perm_split (h : Rep keyFunction equalsFunction t m) {p : ℕ} (hp : p < t.buckets) :
    m.Perm ((chain t p ++ (t.entries.eraseIdx p).flatten).map pair) := by
  rw [chain_eq (h.size ▸ hp)]
  exact h.perm.symm.trans ((flatten_perm_eraseIdx _ (h.size ▸ hp)).map pair)

theorem Rep.replace (h : Rep keyFunction equalsFunction t m) {p : ℕ} (hp : p < t.buckets)
    {ch : List (Entry α)} {m' : List (α × ℕ)} (n : ℕ)
    (hplaced : ∀ f ∈ ch, position t.buckets f.k = p) (hkeyed : ∀ f ∈ ch, f.k = keyFunction f.c)
    (hperm : ((ch ++ (t.entries.eraseIdx p).flatten).map pair).Perm m')
    (hd : Distinct equalsFunction m') (hn : n = m'.length) :
    Rep keyFunction equalsFunction { t with entries := t.entries.set p ch, count := n } m' := by
  have hp' : p < t.entries.length := h.size ▸ hp
  have hflat := flatten_set_perm t.entries hp' ch
  refine ⟨h.pow, by simp [h.size], ?_, ?_, (hflat.map pair).trans hperm, hd, hn⟩
  · intro q f hf
    simp only [chain, getD_set _ _ _ _ hp'] at hf ⊢
    split at hf
    · subst q
      exact hplaced f hf
    · exact h.placed q f hf
  · intro f hf
    rcases List.mem_append.mp (hflat.mem_iff.mp hf) with hc | hr
    · exact hkeyed f hc
    · apply h.keyed
      exact (flatten_perm_eraseIdx _ hp').mem_iff.mpr (List.mem_append_right _ hr)

theorem Rep.replace_of_sub (h : Rep keyFunction equalsFunction t m) {p : ℕ} (hp : p < t.buckets)
    {ch : List (Entry α)} {m' : List (α × ℕ)} (n : ℕ)
    (hsub : ∀ f ∈ ch, ∃ g ∈ chain t p, g.k = f.k ∧ g.c = f.c)
    (hperm : ((ch ++ (t.entries.eraseIdx p).flatten).map pair).Perm m')
    (hd : Distinct equalsFunction m') (hn : n = m'.length) :
    Rep keyFunction equalsFunction { t with entries := t.entries.set p ch, count := n } m' := by
  apply h.replace hp n _ _ hperm hd hn
  · intro f hf
    obtain ⟨g, hg, hk, -⟩ := hsub f hf
    rw [← hk]
    exact h.placed p g hg
  · intro f hf
    obtain ⟨g, hg, hk, hc⟩ := hsub f hf
    rw [← hk, ← hc]
    exact h.keyed g (mem_flatten_of_mem_chain hg)

theorem Rep.perm_split_at (h : Rep keyFunction equalsFunction t m) {p : ℕ} (hp : p < t.buckets)
    {pre post : List (Entry α)} {e : Entry α} (hch : chain t p = pre ++ e :: post) :
    (pre.map pair ++ pair e :: (post ++ (t.entries.eraseIdx p).flatten).map pair).Perm m := by
  have hsplit := (h.perm_split hp).symm
  rw [hch] at hsplit
  simpa using hsplit

end Rep

/-! ## The loops over a chain -/

section Chains
variable {α : Type} {equalsFunction : α → α → Bool} {k : ℕ} {c : α}

theorem setChain_eq_some {v : ℕ} {ch ch' : List (Entry α)} (h : setChain equalsFunction k c v ch = some ch') :
    ∃ pre e post, ch = pre ++ e :: post ∧ entryMatches equalsFunction k c e = true ∧
      ch' = pre ++ (if v = empty then post else { e with v := v } :: post) := by
  induction ch generalizing ch' with
  | nil => simp [setChain] at h
  | cons f rest ih =>
    unfold setChain at h
    split at h
    · exact ⟨[], f, rest, rfl, ‹_›, (Option.some.inj h).symm⟩
    · obtain ⟨r, hr, rfl⟩ := Option.map_eq_some_iff.mp h
      obtain ⟨pre, e, post, rfl, hm, rfl⟩ := ih hr
      exact ⟨f :: pre, e, post, rfl, hm, rfl⟩

theorem setChain_eq_none {v : ℕ} {ch : List (Entry α)} (h : setChain equalsFunction k c v ch = none) :
    ∀ e ∈ ch, entryMatches equalsFunction k c e = false := by
  induction ch with
  | nil => simp
  | cons f rest ih =>
    unfold setChain at h
    split at h
    · exact absurd h (Option.some_ne_none _)
    · rename_i hnm
      intro e he
      rcases List.mem_cons.mp he with rfl | he'
      · simpa using hnm
      · exact ih (Option.map_eq_none_iff.mp h) e he'

theorem removeChain_eq_some {w : ℕ} {ch ch' : List (Entry α)}
    (h : removeChain equalsFunction k c ch = some (w, ch')) :
    ∃ pre e post, ch = pre ++ e :: post ∧ entryMatches equalsFunction k c e = true ∧ w = e.v ∧
      ch' = pre ++ post := by
  induction ch generalizing ch' with
  | nil => simp [removeChain] at h
  | cons f rest ih =>
    unfold removeChain at h
    split at h
    · obtain ⟨rfl, rfl⟩ := Prod.mk.inj (Option.some.inj h)
      exact ⟨[], f, rest, rfl, ‹_›, rfl, rfl⟩
    · obtain ⟨⟨w', r⟩, hr, he⟩ := Option.map_eq_some_iff.mp h
      obtain ⟨rfl, rfl⟩ := Prod.mk.inj he
      obtain ⟨pre, e, post, rfl, hm, hv, rfl⟩ := ih hr
      exact ⟨f :: pre, e, post, rfl, hm, hv, rfl⟩

theorem removeChain_eq_none {ch : List (Entry α)} (h : removeChain equalsFunction k c ch = none) :
    ∀ e ∈ ch, entryMatches equalsFunction k c e = false := by
  induction ch with
  | nil => simp
  | cons f rest ih =>
    unfold removeChain at h
    split at h
    · exact absurd h (Option.some_ne_none _)
    · rename_i hnm
      intro e he
      rcases List.mem_cons.mp he with rfl | he'
      · simpa using hnm
      · exact ih (Option.map_eq_none_iff.mp h) e he'

end Chains

/-! ## `resize_table` -/

section Resize
variable {α : Type} {keyFunction : α → ℕ} {equalsFunction : α → α → Bool}

theorem flatMap_chain (t : Table α) (h : t.entries.length = t.buckets) :
    (List.range t.buckets).flatMap (chain t) = t.entries.flatten := by
  rw [← h, List.flatMap_def]
  congr 1
  apply List.ext_getElem (by simp)
  intro i h1 h2
  simp [chain, List.getElem?_eq_getElem h2]

/-- Pushing entries onto the heads of their chains: every entry ends in the chain its position
    names, and the chains hold the entries pushed and those there before. -/
theorem fold_rehash {B : ℕ} (hB : ∃ n, B = 2 ^ n) (L : List (Entry α)) :
    ∀ init : List (List (Entry α)), init.length = B →
      (∀ q, ∀ e ∈ init.getD q [], position B e.k = q) →
      (L.foldl (rehash B) init).length = B ∧
        (L.foldl (rehash B) init).flatten.Perm (L ++ init.flatten) ∧
        ∀ q, ∀ e ∈ (L.foldl (rehash B) init).getD q [], position B e.k = q := by
  induction L with
  | nil => exact fun init hl hp => ⟨hl, by simp, hp⟩
  | cons e L ih =>
    intro init hl hp
    have hq : position B e.k < init.length := hl ▸ position_lt hB e.k
    have hstep : rehash B init e = init.set (position B e.k) (e :: init[position B e.k]) :=
      modify_eq_set _ hq _
    obtain ⟨h1, h2, h3⟩ := ih (rehash B init e) (by simp [rehash, hl]) (by
      intro q f hf
      rw [hstep, getD_set _ _ _ _ hq] at hf
      split at hf
      · rename_i hqq
        rcases List.mem_cons.mp hf with rfl | hf'
        · exact hqq
        · subst hqq
          exact hp _ f (by simpa [List.getD_eq_getElem?_getD, List.getElem?_eq_getElem hq] using hf')
      · exact hp q f hf)
    refine ⟨h1, ?_, h3⟩
    rw [List.foldl_cons]
    refine h2.trans ?_
    rw [hstep]
    have hset := flatten_set_perm init hq (e :: init[position B e.k])
    have hold := flatten_perm_eraseIdx init hq
    exact (hset.append_left L).trans (((hold.symm.cons e).append_left L).trans List.perm_middle)

/-- `resize_table` to a power of two keeps the map. -/
theorem Rep.resize {t : Table α} {m : List (α × ℕ)} (h : Rep keyFunction equalsFunction t m) {B : ℕ}
    (hB : ∃ n, B = 2 ^ n) : Rep keyFunction equalsFunction (resizeTable t B) m := by
  unfold resizeTable
  rw [flatMap_chain t h.size]
  obtain ⟨h1, h2, h3⟩ := fold_rehash hB t.entries.flatten (List.replicate B []) (by simp) (by
    intro q e he
    simp only [getD_replicate_nil, List.not_mem_nil] at he)
  rw [List.flatten_replicate_nil, List.append_nil] at h2
  refine ⟨hB, h1, h3, fun e he => h.keyed e (h2.mem_iff.mp he), (h2.map pair).trans h.perm,
    h.distinct, h.count⟩

end Resize

/-! ## `table_insert_internal` -/

section Insert
variable {α : Type} {keyFunction : α → ℕ} {equalsFunction : α → α → Bool} {t : Table α}
  {m : List (α × ℕ)}

theorem Rep.append (h : Rep keyFunction equalsFunction t m) {c : α} (v : ℕ)
    (hn : lookup equalsFunction m c = none) :
    let p := position t.buckets (keyFunction c)
    Rep keyFunction equalsFunction
      { t with entries := t.entries.modify p (· ++ [⟨v, keyFunction c, c⟩]), count := t.count + 1 }
      (m ++ [(c, v)]) := by
  intro p
  have hp : p < t.buckets := position_lt h.pow _
  rw [modify_eq_set _ (h.size ▸ hp), ← chain_eq (h.size ▸ hp)]
  apply h.replace hp
  · intro f hf
    rcases List.mem_append.mp hf with hf | hf
    · exact h.placed p f hf
    · rw [List.mem_singleton.mp hf]
  · intro f hf
    rcases List.mem_append.mp hf with hf | hf
    · exact h.keyed f (mem_flatten_of_mem_chain hf)
    · rw [List.mem_singleton.mp hf]
  · have hsplit := h.perm_split hp
    rw [List.map_append] at hsplit
    simp only [List.append_assoc, List.singleton_append, List.map_append, List.map_cons]
    exact (List.perm_middle.trans (hsplit.symm.cons _)).trans (List.perm_append_singleton _ _).symm
  · exact h.distinct.append_of_lookup v hn
  · simp [h.count]

/-- `table_insert_internal` at the position of the element's key adds the pair, whether or not
    the count makes it double the buckets. -/
theorem Rep.insert (h : Rep keyFunction equalsFunction t m) {c : α} (v : ℕ)
    (hn : lookup equalsFunction m c = none) :
    Rep keyFunction equalsFunction
      (tableInsertInternal t (keyFunction c) (position t.buckets (keyFunction c)) c v)
      (m ++ [(c, v)]) := by
  have ht := h.append v hn
  unfold tableInsertInternal
  split
  · obtain ⟨n, hb⟩ := h.pow
    exact ht.resize ⟨n + 1, by rw [hb, Nat.pow_succ]⟩
  · exact ht

end Insert

/-! ## Removing and replacing a matched entry -/

section Match
variable {α : Type} {keyFunction : α → ℕ} {equalsFunction : α → α → Bool}
  (he : Equivalence fun a b => equalsFunction a b = true)
  {t : Table α} {m : List (α × ℕ)} {p : ℕ} {pre post : List (Entry α)} {e : Entry α} {c : α}
include he

theorem Rep.erase_at (h : Rep keyFunction equalsFunction t m) (hp : p < t.buckets)
    (hch : chain t p = pre ++ e :: post) (hc : equalsFunction e.c c = true) :
    Rep keyFunction equalsFunction { t with entries := t.entries.set p (pre ++ post), count := t.count - 1 }
      (erase equalsFunction m c) := by
  have hsplit := h.perm_split_at hp hch
  have herase : (erase equalsFunction m c).Perm
      (pre.map pair ++ (post ++ (t.entries.eraseIdx p).flatten).map pair) := by
    rw [← erase_split he (h.distinct.perm he hsplit.symm) hc]
    exact hsplit.symm.filter _
  apply h.replace_of_sub hp (t.count - 1)
  · intro f hf
    refine ⟨f, ?_, rfl, rfl⟩
    rw [hch]
    exact List.mem_append.mpr ((List.mem_append.mp hf).imp id (List.mem_cons_of_mem e))
  · simpa using herase.symm
  · exact h.distinct.erase c
  · have hlen := hsplit.length_eq
    rw [herase.length_eq, h.count, ← hlen]
    simp

theorem Rep.update_at (h : Rep keyFunction equalsFunction t m) (hp : p < t.buckets)
    (hch : chain t p = pre ++ e :: post) (hc : equalsFunction e.c c = true) (v : ℕ) :
    Rep keyFunction equalsFunction
      { t with entries := t.entries.set p (pre ++ { e with v := v } :: post), count := t.count }
      (update equalsFunction m c v) := by
  have hsplit := h.perm_split_at hp hch
  have hupdate : (update equalsFunction m c v).Perm
      (pre.map pair ++ ((pair e).1, v) :: (post ++ (t.entries.eraseIdx p).flatten).map pair) := by
    rw [← update_split he (h.distinct.perm he hsplit.symm) hc]
    exact hsplit.symm.map _
  apply h.replace_of_sub hp t.count
  · intro f hf
    rw [hch]
    rcases List.mem_append.mp hf with hf | hf
    · exact ⟨f, List.mem_append_left _ hf, rfl, rfl⟩
    · rcases List.mem_cons.mp hf with rfl | hf
      · exact ⟨e, by simp, rfl, rfl⟩
      · exact ⟨f, by simp [hf], rfl, rfl⟩
  · simpa [pair] using hupdate.symm
  · exact h.distinct.update c v
  · rw [h.count]
    simp [update]

end Match

/-! ## The calls -/

section Calls
variable {α : Type} {keyFunction : α → ℕ} {equalsFunction : α → α → Bool}
  (he : Equivalence fun a b => equalsFunction a b = true)
  (hk : ∀ a b, equalsFunction a b = true → keyFunction a = keyFunction b)
  {t : Table α} {m : List (α × ℕ)}
include hk

/-- On an entry of the table, the test of the loops is `equals_function` alone: its stored key is
    the key of its element, which equal elements share. -/
theorem Rep.entryMatches_eq (h : Rep keyFunction equalsFunction t m) {e : Entry α}
    (hm : e ∈ t.entries.flatten) (c : α) :
    entryMatches equalsFunction (keyFunction c) c e = equalsFunction e.c c := by
  unfold entryMatches
  cases hc : equalsFunction e.c c
  · simp
  · simp [h.keyed e hm, hk _ _ hc]

theorem Rep.mem_chain (h : Rep keyFunction equalsFunction t m) {e : Entry α}
    (hm : e ∈ t.entries.flatten) {c : α} (hc : equalsFunction e.c c = true) :
    e ∈ chain t (position t.buckets (keyFunction c)) := by
  have := h.mem_chain_position hm
  rwa [h.keyed e hm, hk _ _ hc] at this

include he

omit hk in
theorem Rep.lookup_of_mem (h : Rep keyFunction equalsFunction t m) {e : Entry α}
    (hm : e ∈ t.entries.flatten) {c : α} (hc : equalsFunction e.c c = true) :
    lookup equalsFunction m c = some e.v := by
  rw [lookup_perm he h.distinct h.perm.symm]
  exact (lookup_eq_some_iff he (h.distinct.perm he h.perm.symm)).mpr
    ⟨e.c, List.mem_map_of_mem hm, hc⟩

theorem Rep.lookup_of_none (h : Rep keyFunction equalsFunction t m) {c : α}
    (hn : ∀ e ∈ chain t (position t.buckets (keyFunction c)),
      entryMatches equalsFunction (keyFunction c) c e = false) :
    lookup equalsFunction m c = none := by
  rw [lookup_perm he h.distinct h.perm.symm, lookup_eq_none_iff]
  intro pr hpr
  obtain ⟨e, hm, rfl⟩ := List.mem_map.mp hpr
  cases hc : equalsFunction e.c c
  · exact hc
  · have := hn e (h.mem_chain hk hm hc)
    rw [h.entryMatches_eq hk hm, hc] at this
    exact Bool.noConfusion this

/-- `table_find` answers the map's lookup, `EMPTY` when the element is not there. -/
theorem tableFind_rep (h : Rep keyFunction equalsFunction t m) (c : α) :
    tableFind keyFunction equalsFunction t c = mapFind equalsFunction m c := by
  unfold tableFind mapFind
  dsimp only
  cases hf : (chain t (position t.buckets (keyFunction c))).find?
      (entryMatches equalsFunction (keyFunction c) c) with
  | some e =>
    have hm := mem_flatten_of_mem_chain (List.mem_of_find?_eq_some hf)
    have hc := List.find?_some hf
    rw [h.entryMatches_eq hk hm] at hc
    rw [h.lookup_of_mem he hm hc]
    rfl
  | none =>
    rw [h.lookup_of_none he hk fun e he' => by simpa using List.find?_eq_none.mp hf e he']
    rfl

/-- `table_set` sets the map: a match is unlinked for `EMPTY` and overwritten otherwise, and an
    absent element is inserted unless the value is `EMPTY`. -/
theorem tableSet_rep (h : Rep keyFunction equalsFunction t m) (c : α) (v : ℕ) :
    Rep keyFunction equalsFunction (tableSet keyFunction equalsFunction t c v)
      (mapSet equalsFunction m c v) := by
  have hp := position_lt h.pow (keyFunction c)
  unfold tableSet mapSet
  dsimp only
  cases hs : setChain equalsFunction (keyFunction c) c v (chain t (position t.buckets (keyFunction c))) with
  | some ch =>
    obtain ⟨pre, e, post, hch, hm, rfl⟩ := setChain_eq_some hs
    have hmem : e ∈ t.entries.flatten := mem_flatten_of_mem_chain (by rw [hch]; simp)
    have hc : equalsFunction e.c c = true := by rwa [h.entryMatches_eq hk hmem] at hm
    by_cases hv : v = empty
    · simp only [hv, if_true]
      exact h.erase_at he hp hch hc
    · simp only [hv, if_false, h.lookup_of_mem he hmem hc, Option.isSome_some]
      exact h.update_at he hp hch hc v
  | none =>
    have hn := h.lookup_of_none he hk (setChain_eq_none hs)
    by_cases hv : v = empty
    · simp only [hv, if_true, ne_eq, not_true_eq_false, if_false, erase_of_lookup_eq_none hn]
      exact h
    · simp only [hv, if_false, ne_eq, not_false_eq_true, if_true, hn, Option.isSome_none,
        Bool.false_eq_true]
      exact h.insert v hn

/-- `table_set_noreplace` answers whether the element was absent and adds it only then. -/
theorem tableSetNoreplace_rep (h : Rep keyFunction equalsFunction t m) (c : α) (v : ℕ) :
    (tableSetNoreplace keyFunction equalsFunction t c v).1 = (mapSetNoreplace equalsFunction m c v).1 ∧
      Rep keyFunction equalsFunction (tableSetNoreplace keyFunction equalsFunction t c v).2
        (mapSetNoreplace equalsFunction m c v).2 := by
  unfold tableSetNoreplace mapSetNoreplace
  dsimp only
  split
  · rename_i hany
    obtain ⟨e, hch, hm⟩ := List.any_eq_true.mp hany
    have hmem := mem_flatten_of_mem_chain hch
    rw [h.entryMatches_eq hk hmem] at hm
    simp only [h.lookup_of_mem he hmem hm, Option.isSome_some, if_true]
    exact ⟨trivial, h⟩
  · rename_i hany
    have hn := h.lookup_of_none he hk fun e hch => by simpa using (List.any_eq_false.mp (by simpa using hany)) e hch
    simp only [hn, Option.isSome_none, Bool.false_eq_true, if_false]
    exact ⟨trivial, h.insert v hn⟩

/-- `table_remove` answers the value the map held, `EMPTY` when none, and erases the element. -/
theorem tableRemove_rep (h : Rep keyFunction equalsFunction t m) (c : α) :
    (tableRemove keyFunction equalsFunction t c).1 = (mapRemove equalsFunction m c).1 ∧
      Rep keyFunction equalsFunction (tableRemove keyFunction equalsFunction t c).2
        (mapRemove equalsFunction m c).2 := by
  have hp := position_lt h.pow (keyFunction c)
  unfold tableRemove mapRemove
  dsimp only
  cases hr : removeChain equalsFunction (keyFunction c) c (chain t (position t.buckets (keyFunction c))) with
  | some r =>
    obtain ⟨w, ch⟩ := r
    obtain ⟨pre, e, post, hch, hm, rfl, rfl⟩ := removeChain_eq_some hr
    have hmem : e ∈ t.entries.flatten := mem_flatten_of_mem_chain (by rw [hch]; simp)
    have hc : equalsFunction e.c c = true := by rwa [h.entryMatches_eq hk hmem] at hm
    rw [h.lookup_of_mem he hmem hc]
    exact ⟨rfl, h.erase_at he hp hch hc⟩
  | none =>
    have hn := h.lookup_of_none he hk (removeChain_eq_none hr)
    rw [hn, erase_of_lookup_eq_none hn]
    exact ⟨rfl, h⟩

end Calls

section Start
variable {α : Type} {keyFunction : α → ℕ} {equalsFunction : α → α → Bool}

theorem allocateTable_rep : Rep keyFunction equalsFunction allocateTable [] := by
  refine ⟨⟨2, rfl⟩, rfl, ?_, ?_, by simp [contents, allocateTable], List.Pairwise.nil, rfl⟩
  · intro p e he
    simp only [chain, allocateTable, getD_replicate_nil, List.not_mem_nil] at he
  · simp [allocateTable]

/-- `table_clear` empties the map and keeps the buckets. -/
theorem tableClear_rep {t : Table α} {m : List (α × ℕ)} (h : Rep keyFunction equalsFunction t m) :
    Rep keyFunction equalsFunction (tableClear t) [] := by
  refine ⟨h.pow, by simp [tableClear], ?_, ?_, by simp [contents, tableClear], List.Pairwise.nil, rfl⟩
  · intro p e he
    simp only [chain, tableClear, getD_replicate_nil, List.not_mem_nil] at he
  · simp [tableClear]

end Start

/-! ## Runs of calls -/

inductive Op (α : Type) where
  | find (c : α)
  | set (c : α) (v : ℕ)
  | setNoreplace (c : α) (v : ℕ)
  | remove (c : α)
  | clear
  deriving DecidableEq, Repr

inductive Reply where
  | value (v : ℕ)
  | flag (b : Bool)
  | done
  deriving DecidableEq, Repr

section Run
variable {α : Type} (keyFunction : α → ℕ) (equalsFunction : α → α → Bool)

/-- One call: its answer and the table after it. -/
def call (t : Table α) : Op α → Reply × Table α
  | .find c => (.value (tableFind keyFunction equalsFunction t c), t)
  | .set c v => (.done, tableSet keyFunction equalsFunction t c v)
  | .setNoreplace c v => (.flag (tableSetNoreplace keyFunction equalsFunction t c v).1,
      (tableSetNoreplace keyFunction equalsFunction t c v).2)
  | .remove c => (.value (tableRemove keyFunction equalsFunction t c).1,
      (tableRemove keyFunction equalsFunction t c).2)
  | .clear => (.done, tableClear t)

def run (t : Table α) : List (Op α) → List Reply × Table α
  | [] => ([], t)
  | op :: ops => ((call keyFunction equalsFunction t op).1 ::
      (run (call keyFunction equalsFunction t op).2 ops).1,
      (run (call keyFunction equalsFunction t op).2 ops).2)

def mapCall (m : List (α × ℕ)) : Op α → Reply × List (α × ℕ)
  | .find c => (.value (mapFind equalsFunction m c), m)
  | .set c v => (.done, mapSet equalsFunction m c v)
  | .setNoreplace c v => (.flag (mapSetNoreplace equalsFunction m c v).1,
      (mapSetNoreplace equalsFunction m c v).2)
  | .remove c => (.value (mapRemove equalsFunction m c).1, (mapRemove equalsFunction m c).2)
  | .clear => (.done, [])

def mapRun (m : List (α × ℕ)) : List (Op α) → List Reply × List (α × ℕ)
  | [] => ([], m)
  | op :: ops => ((mapCall equalsFunction m op).1 :: (mapRun (mapCall equalsFunction m op).2 ops).1,
      (mapRun (mapCall equalsFunction m op).2 ops).2)

end Run

section Refines
variable {α : Type} {keyFunction : α → ℕ} {equalsFunction : α → α → Bool}
  (he : Equivalence fun a b => equalsFunction a b = true)
  (hk : ∀ a b, equalsFunction a b = true → keyFunction a = keyFunction b)
include he hk

/-- One call on a table that holds a map answers as the map does and holds the map the call
    leaves. -/
theorem call_rep {t : Table α} {m : List (α × ℕ)} (h : Rep keyFunction equalsFunction t m)
    (op : Op α) : (call keyFunction equalsFunction t op).1 = (mapCall equalsFunction m op).1 ∧
      Rep keyFunction equalsFunction (call keyFunction equalsFunction t op).2
        (mapCall equalsFunction m op).2 := by
  cases op with
  | find c => exact ⟨congrArg Reply.value (tableFind_rep he hk h c), h⟩
  | set c v => exact ⟨rfl, tableSet_rep he hk h c v⟩
  | setNoreplace c v =>
    obtain ⟨h1, h2⟩ := tableSetNoreplace_rep he hk h c v
    exact ⟨congrArg Reply.flag h1, h2⟩
  | remove c =>
    obtain ⟨h1, h2⟩ := tableRemove_rep he hk h c
    exact ⟨congrArg Reply.value h1, h2⟩
  | clear => exact ⟨rfl, tableClear_rep h⟩

/-- Every run of calls on a table that holds a map answers as the map does: a find gives the
    map's value or `EMPTY`, a set without replacing answers whether the element was absent, a
    remove gives the value removed or `EMPTY`; and the table at the end holds the map the run
    leaves, its buckets a power of two, every entry in the chain of its key's position and the
    count the size of the map, through any number of doublings. -/
theorem table_run {t : Table α} {m : List (α × ℕ)} (h : Rep keyFunction equalsFunction t m)
    (ops : List (Op α)) : (run keyFunction equalsFunction t ops).1 = (mapRun equalsFunction m ops).1 ∧
      Rep keyFunction equalsFunction (run keyFunction equalsFunction t ops).2
        (mapRun equalsFunction m ops).2 := by
  -- induction on the calls, with the table and the map they start from free
  induction ops generalizing t m with
  | nil => exact ⟨rfl, h⟩
  | cons op ops ih =>
    obtain ⟨h1, h2⟩ := call_rep he hk h op
    obtain ⟨h3, h4⟩ := ih h2
    exact ⟨by rw [run, mapRun, h1, h3], h4⟩

end Refines

example : (run identityKey pointerEqual allocateTable
    [.set 1 10, .set 2 20, .set 3 30, .set 4 40, .set 5 50, .set 6 60, .find 5]) =
    ([.done, .done, .done, .done, .done, .done, .value 50],
      ⟨8, 6, [[], [⟨10, 1, 1⟩], [⟨20, 2, 2⟩], [⟨30, 3, 3⟩], [⟨40, 4, 4⟩], [⟨50, 5, 5⟩],
        [⟨60, 6, 6⟩], []]⟩) := by decide

/-- Six elements set into a new table of pointers, which doubles its buckets, then a set without
    replacing of one of them, a find and a remove. -/
theorem table_run_pointers :
    (Equivalence fun a b => pointerEqual a b = true) ∧
      (∀ a b, pointerEqual a b = true → identityKey a = identityKey b) ∧
      let ops : List (Op ℕ) := [.set 1 10, .set 2 20, .set 3 30, .set 4 40, .set 5 50, .set 6 60,
        .setNoreplace 5 70, .find 5, .remove 2, .find 2]
      (run identityKey pointerEqual allocateTable ops).1 = (mapRun pointerEqual [] ops).1 ∧
        Rep identityKey pointerEqual (run identityKey pointerEqual allocateTable ops).2
          (mapRun pointerEqual [] ops).2 := by
  have he : Equivalence fun a b => pointerEqual a b = true :=
    ⟨fun a => by simp [pointerEqual], fun h => by simp_all [pointerEqual],
      fun h1 h2 => by simp_all [pointerEqual]⟩
  have hk : ∀ a b, pointerEqual a b = true → identityKey a = identityKey b :=
    fun a b h => by simpa [pointerEqual, identityKey] using h
  exact ⟨he, hk, table_run he hk allocateTable_rep _⟩

end Nanos.Tables
