import Nanos.RangemapInsert

set_option autoImplicit false

/-!
# `rangemap_range_lookup_internal`: the nodes and the gaps of a query range

`rangemap_range_lookup_with_gaps(rm, q, node_handler, gap_handler)` walks the nodes that meet `q`
in order, handing the gap before each node, when not empty, to the gap handler and the node to the
node handler, and the gap up to `q.end` last; a handler that returns false aborts the walk. A
handler is a function of a state `σ`; the walk never writes the map.

On a well-formed map the walk is a run of the handlers over one list of visits
(`rangeLookupInternal_eq`) whose pieces tile `q`, with the gaps exactly the maximal parts of `q`
no node covers (`rangemap_range_lookup_with_gaps_spec`).
-/

namespace Nanos.RangemapLookup
open ColorTree NodeHeap CTree Rbtree RbtreeNav RbtreeRun Rangemap Intervals RangemapMerge
  RangemapInsert

/-- `RM_NOMATCH`, `RM_ABORT` and `RM_MATCH`. -/
inductive RmResult
  | noMatch
  | abort
  | matched
deriving DecidableEq, Repr

variable {ν σ α : Type} [DecidableEq ν]

/-- A handler call of the loop body: when the handler is set and the piece is not empty, the
    match flag is set and the handler runs on the handler state. The last component is false
    when the handler asks to abort. -/
def visit (h : Option (σ → α → σ × Bool)) (nonempty : Bool) (st : σ) (m : Bool) (a : α) :
    σ × Bool × Bool :=
  match h with
  | some h => if nonempty then ((h st a).1, true, (h st a).2) else (st, m, true)
  | none => (st, m, true)

/-- How the loop over the nodes ends: aborted by a handler, or with the match flag and
    `lastedge`. -/
inductive LoopEnd
  | abort
  | done (m : Bool) (lastedge : ℕ)

section
variable (s : RmState ν) (q : Range) (nh : Option (σ → ν → σ × Bool))
  (gh : Option (σ → Range → σ × Bool))

/-- The `rangemap_foreach_of_range(rm, curr, &k)` loop of `rangemap_range_lookup_internal`,
    with `k.r = q`. The successor is read before the loop test. -/
def lookupLoop : ℕ → σ → Bool → ℕ → Option ν → Option (σ × LoopEnd)
  | 0, _, _, _, _ => none
  | _ + 1, st, m, lastedge, none => some (st, .done m lastedge)
  | fuel + 1, st, m, lastedge, some curr => do
    let next ← rangemapNextNode s curr
    if rangeSpan (rangeIntersection q (s.r curr)) > 0 then
      -- the gap between the previous node and this one
      let i := rangeIntersection ⟨lastedge, (s.r curr).start⟩ q
      let g := visit gh (decide (rangeSpan i ≠ 0)) st m i
      if !g.2.2 then some (g.1, .abort) else
      let lastedge := if gh.isSome then (s.r curr).end else lastedge
      let v := visit nh (decide (rangeSpan (rangeIntersection (s.r curr) q) ≠ 0)) g.1 g.2.1 curr
      if !v.2.2 then some (v.1, .abort) else
      lookupLoop fuel v.1 v.2.1 lastedge next
    else some (st, .done m lastedge)

/-- `rangemap_range_lookup_internal(rm, q, node_handler, gap_handler)` from the handler state
    `st`; `none` handlers are null. -/
def rangemapRangeLookupInternal (st : σ) : Option (σ × RmResult) := do
  let curr ← rangemapLookupAtOrNext s q.start
  let r ← lookupLoop s q nh gh (s.t.count + 1) st false q.start curr
  match r.2 with
  | .abort => pure (r.1, .abort)
  | .done m lastedge =>
    -- the gap between the last node and `q.end`
    let i := rangeIntersection ⟨lastedge, q.end⟩ q
    let g := visit gh (decide (rangeSpan i ≠ 0)) r.1 m i
    if !g.2.2 then pure (g.1, .abort)
    else pure (g.1, if g.2.1 then .matched else .noMatch)

end

def rangemapRangeLookup (s : RmState ν) (q : Range) (nh : σ → ν → σ × Bool) (st : σ) :
    Option (σ × RmResult) :=
  rangemapRangeLookupInternal s q (some nh) none st

def rangemapRangeLookupWithGaps (s : RmState ν) (q : Range) (nh : σ → ν → σ × Bool)
    (gh : σ → Range → σ × Bool) (st : σ) : Option (σ × RmResult) :=
  rangemapRangeLookupInternal s q (some nh) (some gh) st

def rangemapRangeFindGaps (s : RmState ν) (q : Range) (gh : σ → Range → σ × Bool) (st : σ) :
    Option (σ × RmResult) :=
  rangemapRangeLookupInternal s q (none : Option (σ → ν → σ × Bool)) (some gh) st

/-- The loop of `rangemap_range_intersects(rm, q)`: the loop test asks that the node meet `q`,
    and the body then returns true when it does. -/
def intersectsLoop (s : RmState ν) (q : Range) : ℕ → Option ν → Option Bool
  | 0, _ => none
  | _ + 1, none => some false
  | fuel + 1, some n => do
    let next ← rangemapNextNode s n
    if rangeSpan (rangeIntersection q (s.r n)) > 0 then
      if rangeSpan (rangeIntersection (s.r n) q) ≠ 0 then some true
      else intersectsLoop s q fuel next
    else some false

def rangemapRangeIntersects (s : RmState ν) (q : Range) : Option Bool := do
  let n ← rangemapLookupAtOrNext s q.start
  intersectsLoop s q (s.t.count + 1) n

/-! ## The visits of a lookup -/

/-- What the walk hands to a handler: a node, or a gap. -/
inductive Visit (ν : Type)
  | node (n : ν)
  | gap (r : Range)
deriving DecidableEq

namespace Visit

def node? : Visit ν → Option ν
  | node n => some n
  | gap _ => none

def isGap : Visit ν → Bool
  | node _ => false
  | gap _ => true

/-- The part of `q` that a visit stands for: the part of the node's range inside `q`, or the
    gap. -/
def piece (R : ν → Range) (q : Range) : Visit ν → Range
  | node n => rangeIntersection (R n) q
  | gap r => r

def handled (nh : Option (σ → ν → σ × Bool)) (gh : Option (σ → Range → σ × Bool)) :
    Visit ν → Bool
  | node _ => nh.isSome
  | gap _ => gh.isSome

def apply (nh : Option (σ → ν → σ × Bool)) (gh : Option (σ → Range → σ × Bool)) (st : σ) :
    Visit ν → σ × Bool
  | node n => nh.elim (st, true) fun h => h st n
  | gap r => gh.elim (st, true) fun h => h st r

end Visit

/-- The calls of `f` on the items of a list in order, until one returns false: the last state
    and whether every call returned true. -/
def runVisits (f : σ → α → σ × Bool) : σ → List α → σ × Bool
  | st, [] => (st, true)
  | st, a :: as => if (f st a).2 then runVisits f (f st a).1 as else ((f st a).1, false)

@[simp] theorem runVisits_nil (f : σ → α → σ × Bool) (st : σ) : runVisits f st [] = (st, true) :=
  rfl

@[simp] theorem runVisits_singleton (f : σ → α → σ × Bool) (st : σ) (a : α) :
    runVisits f st [a] = f st a := by
  unfold runVisits
  split
  · next h => exact Prod.ext rfl h.symm
  · next h => exact Prod.ext rfl (Bool.eq_false_iff.2 h).symm

theorem runVisits_append (f : σ → α → σ × Bool) (st : σ) (A B : List α) :
    runVisits f st (A ++ B) =
      if (runVisits f st A).2 then runVisits f (runVisits f st A).1 B else runVisits f st A := by
  induction A generalizing st with
  | nil => rfl
  | cons a A ih =>
    simp only [List.cons_append, runVisits]
    split
    · exact ih _
    · rfl

theorem runVisits_preserves (P : σ → Prop) {f : σ → α → σ × Bool}
    (hf : ∀ st a, P st → P (f st a).1) : ∀ (V : List α) (st : σ), P st → P (runVisits f st V).1
  | [], _, hst => hst
  | a :: V, st, hst => by
    unfold runVisits
    split
    · exact runVisits_preserves P hf V _ (hf st a hst)
    · exact hf st a hst

theorem runVisits_of_stop {f : σ → α → σ × Bool} (p : α → Bool) (g : α → σ)
    (hf : ∀ st a, f st a = if p a then (g a, false) else (st, true)) :
    ∀ (L : List α) (st : σ), runVisits f st L =
      match L.find? p with
      | some a => (g a, false)
      | none => (st, true)
  | [], _ => rfl
  | a :: L, st => by
    by_cases hp : p a
    · simp [runVisits, hf, hp]
    · simp [runVisits, hf, hp, runVisits_of_stop p g hf L st]

theorem isEmpty_append (A B : List α) : (A ++ B).isEmpty = (A.isEmpty && B.isEmpty) := by
  cases A <;> simp

def gapVisits (q : Range) (a b : ℕ) : List (Visit ν) :=
  if rangeSpan (rangeIntersection ⟨a, b⟩ q) ≠ 0 then [.gap (rangeIntersection ⟨a, b⟩ q)] else []

def nodeVisits (R : ν → Range) (q : Range) : ℕ → List ν → List (Visit ν)
  | _, [] => []
  | e, n :: M => gapVisits q e (R n).start ++ .node n :: nodeVisits R q (R n).end M

def lastEnd (R : ν → Range) : ℕ → List ν → ℕ
  | e, [] => e
  | _, n :: M => lastEnd R (R n).end M

/-- The visits of a lookup over `q` whose nodes that meet `q` are `M`, in order: the nodes and
    the gaps before each of them and after the last. -/
def visits (R : ν → Range) (q : Range) (M : List ν) : List (Visit ν) :=
  nodeVisits R q q.start M ++ gapVisits q (lastEnd R q.start M) q.end

def meets (R : ν → Range) (q : Range) (n : ν) : Bool :=
  decide (rangeSpan (rangeIntersection (R n) q) ≠ 0)

/-- The state and the result of a lookup that hands the handled visits of `V` to their
    handlers: `RM_ABORT` when one returns false, else `RM_MATCH` when one was called. -/
def outcome (nh : Option (σ → ν → σ × Bool)) (gh : Option (σ → Range → σ × Bool)) (st : σ)
    (V : List (Visit ν)) : σ × RmResult :=
  let W := V.filter (Visit.handled nh gh)
  ((runVisits (Visit.apply nh gh) st W).1,
    if (runVisits (Visit.apply nh gh) st W).2 then (if W.isEmpty then .noMatch else .matched)
    else .abort)

/-! ## The loop runs the handlers over the visits -/

section loop
variable {nh : Option (σ → ν → σ × Bool)} {gh : Option (σ → Range → σ × Bool)}

omit [DecidableEq ν] in
theorem visit_gap (q : Range) (a b : ℕ) (st : σ) (m : Bool) :
    visit gh (decide (rangeSpan (rangeIntersection ⟨a, b⟩ q) ≠ 0)) st m
        (rangeIntersection ⟨a, b⟩ q) =
      let W := (gapVisits (ν := ν) q a b).filter (Visit.handled nh gh)
      ((runVisits (Visit.apply nh gh) st W).1, m || !W.isEmpty,
        (runVisits (Visit.apply nh gh) st W).2) := by
  unfold gapVisits
  cases gh <;> by_cases hi : rangeSpan (rangeIntersection ⟨a, b⟩ q) ≠ 0 <;>
    simp [visit, hi, Visit.handled, Visit.apply, List.filter_cons]

omit [DecidableEq ν] in
theorem visit_node (st : σ) (m : Bool) (n : ν) :
    visit nh true st m n =
      let W := [Visit.node n].filter (Visit.handled nh gh)
      ((runVisits (Visit.apply nh gh) st W).1, m || !W.isEmpty,
        (runVisits (Visit.apply nh gh) st W).2) := by
  cases nh <;> simp [visit, Visit.handled, Visit.apply, List.filter_cons]

omit [DecidableEq ν] in
theorem filter_nodeVisits_cons (p : Visit ν → Bool) (R : ν → Range) (q : Range) (e : ℕ) (n : ν)
    (M : List ν) :
    (nodeVisits R q e (n :: M)).filter p =
      (gapVisits q e (R n).start).filter p ++
        ([Visit.node n].filter p ++ (nodeVisits R q (R n).end M).filter p) := by
  rw [nodeVisits, ← List.singleton_append, List.filter_append, List.filter_append]

omit [DecidableEq ν] in
theorem filter_gapVisits_of_none (hg : gh.isSome = false) (q : Range) (a b : ℕ) :
    (gapVisits (ν := ν) q a b).filter (Visit.handled nh gh) = [] := by
  unfold gapVisits
  split <;> simp [Visit.handled, hg]

omit [DecidableEq ν] in
theorem filter_nodeVisits_of_none (hg : gh.isSome = false) (R : ν → Range) (q : Range) :
    ∀ (M : List ν) (e e' : ℕ), (nodeVisits R q e M).filter (Visit.handled nh gh) =
      (nodeVisits R q e' M).filter (Visit.handled nh gh) := by
  intro M
  induction M with
  | nil => intro e e'; rfl
  | cons n M ih =>
    intro e e'
    rw [filter_nodeVisits_cons, filter_nodeVisits_cons, filter_gapVisits_of_none hg,
      filter_gapVisits_of_none hg]

/-- The loop from the first node of `M ++ C`, where every node of `M` meets `q` and the first
    node of `C` does not: it runs the handlers over the handled visits of the nodes of `M` and
    the gaps before them, and ends with the match flag set when one was made, and `lastedge` at
    the end of the last node when there is a gap handler. -/
theorem lookupLoop_eq {s : RmState ν} {t : CTree ν} {q : Range} (h : TreeOk s t) :
    ∀ (M P C : List ν) (st : σ) (m : Bool) (e fuel : ℕ),
      t.toList = P ++ M ++ C → M.length < fuel → (∀ x ∈ M, meets s.r q x = true) →
      (∀ c ∈ C.head?, meets s.r q c = false) →
      lookupLoop s q nh gh fuel st m e (M ++ C).head? =
        some (let W := (nodeVisits s.r q e M).filter (Visit.handled nh gh)
          ((runVisits (Visit.apply nh gh) st W).1,
            if (runVisits (Visit.apply nh gh) st W).2 then
              .done (m || !W.isEmpty) (if gh.isSome then lastEnd s.r e M else e)
            else .abort)) := by
  intro M
  induction M with
  | nil =>
    intro P C st m e fuel ht hf _ hC
    obtain ⟨fuel, rfl⟩ : ∃ f, fuel = f + 1 := ⟨fuel - 1, by simp at hf; omega⟩
    cases C with
    | nil => simp [lookupLoop, nodeVisits, lastEnd]
    | cons c C =>
      -- the loop test fails on `c`, after its successor is read
      have hnext := nextNode_eq h (show c ∈ t.toList by simp [ht])
      have hc : ¬ rangeSpan (rangeIntersection q (s.r c)) > 0 := by
        have := hC c rfl
        simp only [meets, decide_eq_false_iff_not, not_not] at this
        rw [rangeIntersection_comm, this]
        omega
      simp [lookupLoop, hnext, hc, nodeVisits, lastEnd]
  | cons x M ih =>
    intro P C st m e fuel ht hf hM hC
    obtain ⟨fuel, rfl⟩ : ∃ f, fuel = f + 1 := ⟨fuel - 1, by simp at hf; omega⟩
    have hnd : (P ++ x :: (M ++ C)).Nodup := by
      have := h.ordered.nodup
      rwa [ht, List.append_assoc, List.cons_append] at this
    have hxP : x ∉ P := fun hmem => (List.nodup_append.1 hnd).2.2 x hmem x List.mem_cons_self rfl
    have hnext : rangemapNextNode s x = some (M ++ C).head? := by
      rw [nextNode_eq h (by simp [ht]), ht, List.append_assoc, List.cons_append,
        succOf_append_cons hxP]
    have hx := hM x List.mem_cons_self
    have hne : decide (rangeSpan (rangeIntersection (s.r x) q) ≠ 0) = true := hx
    have hx' : rangeSpan (rangeIntersection q (s.r x)) > 0 := by
      rw [rangeIntersection_comm]
      simp only [meets, decide_eq_true_eq] at hx
      omega
    -- the rest of the loop, from the successor of `x`
    have hrest := fun st m e => ih (P ++ [x]) C st m e fuel (by simp [ht]) (by simp at hf; omega)
      (fun y hy => hM y (List.mem_cons_of_mem x hy)) hC
    simp only [lookupLoop, List.cons_append, List.head?_cons, hnext, Option.bind_eq_bind,
      Option.bind_some, if_pos hx', hne]
    rw [@visit_gap ν σ nh gh, @visit_node ν σ nh gh, filter_nodeVisits_cons]
    simp only [runVisits_append]
    by_cases hG : (runVisits (Visit.apply nh gh) st
        ((gapVisits (ν := ν) q e (s.r x).start).filter (Visit.handled nh gh))).2 = true
    · by_cases hN : (runVisits (Visit.apply nh gh) (runVisits (Visit.apply nh gh) st
          ((gapVisits (ν := ν) q e (s.r x).start).filter (Visit.handled nh gh))).1
          ([Visit.node x].filter (Visit.handled nh gh))).2 = true
      · rw [hrest]
        by_cases hg : gh.isSome = true
        · simp [hG, hN, hg, lastEnd, isEmpty_append, Bool.or_assoc]
        · -- no gap handler: `lastedge` stays, and no gap is handled
          rw [filter_nodeVisits_of_none (Bool.eq_false_iff.2 hg) s.r q M (s.r x).end e]
          simp [hG, hN, hg, isEmpty_append, Bool.or_assoc]
      · simp [hG, hN]
    · simp [hG]

end loop

/-! ## The nodes that meet the query -/

theorem span_ne_zero_iff (a b : Range) :
    rangeSpan (rangeIntersection a b) ≠ 0 ↔ max a.start b.start < min a.end b.end := by
  unfold rangeIntersection rangeSpan
  by_cases hle : min a.end b.end ≤ max a.start b.start
  · simp only [hle, ↓reduceIte, ne_eq, not_true_eq_false, false_iff, not_lt]
  · simp only [hle, ↓reduceIte, ne_eq]
    omega

theorem rangeIntersection_of_lt {a b : Range} (h : max a.start b.start < min a.end b.end) :
    rangeIntersection a b = ⟨max a.start b.start, min a.end b.end⟩ := by
  unfold rangeIntersection
  rw [if_neg (Nat.not_le.2 h)]

omit [DecidableEq ν] in
theorem meets_iff (R : ν → Range) (q : Range) (n : ν) :
    meets R q n = true ↔ max (R n).start q.start < min (R n).end q.end := by
  rw [meets, decide_eq_true_iff, span_ne_zero_iff]

section nodes
variable {s : RmState ν} {t : CTree ν} {q : Range}

omit [DecidableEq ν] in
theorem not_meets_of_chain {c : ν} {C : List ν} (hch : Chain s.start s.end (c :: C))
    (hne : ∀ x ∈ c :: C, s.start x < s.end x) (hc : meets s.r q c = false)
    (hqc : q.start < s.end c) : ∀ y ∈ c :: C, meets s.r q y = false := by
  have hc' := hc
  rw [← Bool.not_eq_true, meets_iff] at hc'
  intro y hy
  rcases List.mem_cons.1 hy with rfl | hy
  · exact hc
  · have hcy := (List.pairwise_cons.1 hch).1 y hy
    have hy₀ := hne y (List.mem_cons_of_mem c hy)
    have hc₀ := hne c List.mem_cons_self
    rw [← Bool.not_eq_true, meets_iff]
    simp only [RmState.start, RmState.end] at hcy hy₀ hc₀ hqc
    omega

omit [DecidableEq ν] in
/-- The in-order nodes of a well-formed map are those that end at or before `q.start`, then
    those that meet `q`, then nodes that miss `q` and end after `q.start`; the loop starts at the
    first node after the first part. -/
theorem split_meets (h : WellFormed s t) (q : Range) :
    ∃ A C : List ν, t.toList = A ++ t.toList.filter (meets s.r q) ++ C ∧
      t.toList.dropWhile (fun y => s.end y ≤ q.start) = t.toList.filter (meets s.r q) ++ C ∧
      (∀ a ∈ A, s.end a ≤ q.start) ∧ ∀ c ∈ C, meets s.r q c = false ∧ q.start < s.end c := by
  obtain ⟨B, hB⟩ : ∃ B, B = t.toList.dropWhile fun y => s.end y ≤ q.start := ⟨_, rfl⟩
  have hL : t.toList = t.toList.takeWhile (fun y => s.end y ≤ q.start) ++
      B.takeWhile (meets s.r q) ++ B.dropWhile (meets s.r q) := by
    rw [List.append_assoc, List.takeWhile_append_dropWhile, hB, List.takeWhile_append_dropWhile]
  have hBe : ∀ y ∈ B, q.start < s.end y := hB ▸ h.chain.lt_hi_of_mem_dropWhile h.nonempty q.start
  have hA : ∀ a ∈ t.toList.takeWhile (fun y => s.end y ≤ q.start), s.end a ≤ q.start :=
    fun a ha => by simpa using List.mem_takeWhile_imp ha
  -- after the first node that misses `q`, which ends after `q.start`, none meets it
  have hC : ∀ c ∈ B.dropWhile (meets s.r q), meets s.r q c = false := by
    cases hD : B.dropWhile (meets s.r q) with
    | nil => simp
    | cons c C =>
      have hsub : (c :: C).Sublist t.toList := by
        rw [hL, hD]
        exact List.sublist_append_right _ _
      have hc := List.head?_dropWhile_not (meets s.r q) B
      rw [hD, List.head?_cons] at hc
      have hBD : c ∈ B := (List.dropWhile_sublist _).subset (by rw [hD]; exact List.mem_cons_self)
      exact not_meets_of_chain (h.chain.sublist hsub) (fun x hx => h.nonempty x (hsub.subset hx))
        hc (hBe c hBD)
  -- so the nodes that meet `q` are the middle part
  have hfilter : t.toList.filter (meets s.r q) = B.takeWhile (meets s.r q) := by
    rw [hL, List.filter_append, List.filter_append,
      (List.filter_eq_self (l := B.takeWhile (meets s.r q))).2 fun x hx => List.mem_takeWhile_imp hx]
    have hA' : (t.toList.takeWhile fun y => s.end y ≤ q.start).filter (meets s.r q) = [] := by
      rw [List.filter_eq_nil_iff]
      intro a ha
      have := hA a ha
      rw [meets_iff]
      simp only [RmState.end] at this
      omega
    rw [hA', List.filter_eq_nil_iff.2 fun c hc => by rw [hC c hc]; decide, List.nil_append,
      List.append_nil]
  refine ⟨_, B.dropWhile (meets s.r q), hfilter ▸ hL, ?_, hA, fun c hc =>
    ⟨hC c hc, hBe c ((List.dropWhile_sublist _).subset hc)⟩⟩
  rw [← hB, hfilter, List.takeWhile_append_dropWhile]

end nodes

/-! ## The lookup runs the handlers over the visits -/

theorem result_of_isEmpty (A B : List α) :
    (if (false || !A.isEmpty || !B.isEmpty) = true then RmResult.matched else .noMatch) =
      if (A ++ B).isEmpty = true then .noMatch else .matched := by
  rw [isEmpty_append]
  cases A.isEmpty <;> cases B.isEmpty <;> rfl

/-- On a well-formed map `rangemap_range_lookup_internal` hands the handled visits of the nodes
    that meet `q`, and of the gaps before and after them, to their handlers in order. -/
theorem rangeLookupInternal_eq {s : RmState ν} {t : CTree ν} (h : WellFormed s t) (q : Range)
    (nh : Option (σ → ν → σ × Bool)) (gh : Option (σ → Range → σ × Bool)) (st : σ) :
    rangemapRangeLookupInternal s q nh gh st =
      some (outcome nh gh st (visits s.r q (t.toList.filter (meets s.r q)))) := by
  -- the nodes that end at or before `q.start`, those that meet `q`, and the rest
  obtain ⟨A, C, hL, hB, -, hC⟩ := split_meets h q
  have hloop := @lookupLoop_eq ν σ _ nh gh s t q h.treeOk (t.toList.filter (meets s.r q)) A C st
    false q.start (s.t.count + 1) hL (by
      have hlen := congrArg List.length hL
      simp only [List.length_append] at hlen
      rw [h.count, size]
      omega) (fun x hx => (List.mem_filter.1 hx).2) (fun c hc => (hC c (List.mem_of_mem_head? hc)).1)
  unfold rangemapRangeLookupInternal
  rw [lookupAtOrNext_eq q.start h, hB]
  simp only [Option.bind_eq_bind, Option.bind_some, hloop]
  generalize t.toList.filter (meets s.r q) = M
  simp only [outcome, visits, List.filter_append, runVisits_append]
  by_cases hW : (runVisits (Visit.apply nh gh) st
      ((nodeVisits s.r q q.start M).filter (Visit.handled nh gh))).2 = true
  · -- the loop went through: then the gap up to `q.end`
    simp only [hW, if_true]
    rw [@visit_gap ν σ nh gh]
    by_cases hg : gh.isSome = true
    · by_cases hG : (runVisits (Visit.apply nh gh) (runVisits (Visit.apply nh gh) st
          ((nodeVisits s.r q q.start M).filter (Visit.handled nh gh))).1
          ((gapVisits q (lastEnd s.r q.start M) q.end).filter (Visit.handled nh gh))).2 = true
      · simp only [hg, hG, if_true, Bool.not_true, Bool.false_eq_true, if_false,
          result_of_isEmpty, Option.pure_def]
      · simp [hg, hG]
    · -- no gap handler: no gap is handled
      have hg' := Bool.eq_false_iff.2 hg
      simp only [hg', filter_gapVisits_of_none hg', runVisits_nil, Bool.not_true,
        Bool.false_eq_true, if_false, if_true, result_of_isEmpty, List.append_nil,
        Option.pure_def]
  · simp [hW]

/-- On a well-formed map, a property of the handler state that every call of either handler
    keeps holds of the state that `rangemap_range_lookup_with_gaps` returns. -/
theorem lookupWithGaps_preserves {s : RmState ν} {t : CTree ν} (h : WellFormed s t) {q : Range}
    {nh : σ → ν → σ × Bool} {gh : σ → Range → σ × Bool} (P : σ → Prop)
    (hnh : ∀ st n, P st → P (nh st n).1) (hgh : ∀ st r, P st → P (gh st r).1) {st st' : σ}
    {res : RmResult} (he : rangemapRangeLookupWithGaps s q nh gh st = some (st', res))
    (hst : P st) : P st' := by
  rw [rangemapRangeLookupWithGaps, rangeLookupInternal_eq h, Option.some_inj, outcome] at he
  rw [Prod.mk.injEq] at he
  rw [← he.1]
  refine runVisits_preserves P (fun st v hv => ?_) _ st hst
  cases v with
  | node n => exact hnh st n hv
  | gap r => exact hgh st r hv

/-! ## What the visits are -/

section visits
variable {R : ν → Range} {q : Range}

omit [DecidableEq ν] in
theorem gap_of_mem_gapVisits {a b : ℕ} {r : Range} (h : Visit.gap r ∈ gapVisits (ν := ν) q a b) :
    r.start = max a q.start ∧ r.end = min b q.end ∧ r.start < r.end := by
  unfold gapVisits at h
  split at h
  · next hne =>
    have hlt := (span_ne_zero_iff _ _).1 hne
    rw [List.mem_singleton, Visit.gap.injEq, rangeIntersection_of_lt hlt] at h
    subst h
    exact ⟨rfl, rfl, hlt⟩
  · simp at h

omit [DecidableEq ν] in
theorem filterMap_gapVisits (a b : ℕ) : (gapVisits (ν := ν) q a b).filterMap Visit.node? = [] := by
  unfold gapVisits
  split <;> rfl

omit [DecidableEq ν] in
theorem filterMap_nodeVisits : ∀ (M : List ν) (e : ℕ),
    (nodeVisits R q e M).filterMap Visit.node? = M := by
  intro M
  induction M with
  | nil => intro e; rfl
  | cons n M ih =>
    intro e
    rw [nodeVisits, List.filterMap_append, filterMap_gapVisits, List.nil_append,
      List.filterMap_cons, Visit.node?, ih]

omit [DecidableEq ν] in
theorem tiles_gapVisits {e b : ℕ} (hb : min e q.end ≤ max b q.start) :
    Tiles Range.start Range.end (max q.start (min e q.end)) (max q.start (min b q.end))
      ((gapVisits (ν := ν) q e b).map (Visit.piece R q)) := by
  unfold gapVisits
  split
  · next hne =>
    have hlt := (span_ne_zero_iff _ _).1 hne
    simp only [List.map_cons, List.map_nil, Visit.piece, rangeIntersection_of_lt hlt, tiles_cons,
      tiles_nil]
    dsimp only at hlt
    omega
  · next hne =>
    have hle := mt (span_ne_zero_iff _ _).2 hne
    simp only [List.map_nil, tiles_nil]
    dsimp only at hle
    omega

omit [DecidableEq ν] in
/-- The pieces of the visits of the nodes `M` from the edge `e`, and of the gap after them, tile
    `q` from `e` clipped to `q` up to its end, when the nodes meet `q`, form a chain, and start
    at or after `e` unless they start before `q`. -/
theorem tiles_nodeVisits : ∀ (M : List ν) (e : ℕ), (∀ n ∈ M, meets R q n = true) →
    M.Pairwise (fun x y => (R x).end ≤ (R y).start) → (∀ n ∈ M, e ≤ max (R n).start q.start) →
    Tiles Range.start Range.end (max q.start (min e q.end)) (max q.start q.end)
      ((nodeVisits R q e M ++ gapVisits q (lastEnd R e M) q.end).map (Visit.piece R q)) := by
  intro M
  induction M with
  | nil =>
    intro e _ _ _
    have h := tiles_gapVisits (R := R) (q := q) (e := e) (b := q.end) (by omega)
    rwa [Nat.min_self] at h
  | cons n M ih =>
    intro e hM hch he
    have hn := (meets_iff R q n).1 (hM n List.mem_cons_self)
    have hen := he n List.mem_cons_self
    -- the nodes after `n` start at or after its end
    have hrest := ih (R n).end (fun x hx => hM x (List.mem_cons_of_mem n hx))
      (List.pairwise_cons.1 hch).2
      (fun x hx => ((List.pairwise_cons.1 hch).1 x hx).trans (le_max_left _ _))
    have hclip : max q.start (min (R n).end q.end) = min (R n).end q.end := by omega
    rw [hclip] at hrest
    -- the gap before `n`, then `n`, then the rest
    have hgap := tiles_gapVisits (R := R) (q := q) (e := e) (b := (R n).start) (by omega)
    rw [nodeVisits, lastEnd, List.append_assoc, List.map_append, List.cons_append, List.map_cons]
    refine hgap.append ⟨?_, ?_, ?_⟩
    · simp only [Visit.piece, rangeIntersection_of_lt hn]
      omega
    · simpa only [Visit.piece, rangeIntersection_of_lt hn] using hn
    · simpa only [Visit.piece, rangeIntersection_of_lt hn] using hrest

end visits

/-- A gap of `q` that no node covers and that no point of `q` next to it lengthens: it starts
    at the start of `q` or right after a covered point, and ends at the end of `q` or at a
    covered point. -/
def MaximalGap (s : RmState ν) (t : CTree ν) (q r : Range) : Prop :=
  (∀ x, r.start ≤ x → x < r.end → x ∉ covered s t) ∧
    (r.start = q.start ∨ r.start - 1 ∈ covered s t) ∧ (r.end = q.end ∨ r.end ∈ covered s t)

section gaps
variable {s : RmState ν} {t : CTree ν} {q : Range}

omit [DecidableEq ν] in
theorem mem_covered {x : ℕ} : x ∈ covered s t ↔ ∃ y ∈ t.toList, s.start y ≤ x ∧ x < s.end y :=
  Iff.rfl

omit [DecidableEq ν] in
theorem mem_covered_of_mem {y : ν} (hy : y ∈ t.toList) {x : ℕ}
    (h1 : s.start y ≤ x) (h2 : x < s.end y) : x ∈ covered s t :=
  mem_covered.2 ⟨y, hy, h1, h2⟩

omit [DecidableEq ν] in
/-- Every gap of the visits of the nodes `M` from the edge `e`, and of the gap after them, is
    maximal. The nodes before `M` end at or before the edge, which is `q.start` or follows a
    covered point, and the nodes after `M` start after every point of `q`. -/
theorem maximalGap_of_mem (h : WellFormed s t) :
    ∀ (M P C : List ν) (e : ℕ), t.toList = P ++ M ++ C → (∀ n ∈ M, meets s.r q n = true) →
      (∀ c ∈ C, ∀ x, q.start ≤ x → x < q.end → x < s.start c) →
      (∀ a ∈ P, s.end a ≤ max e q.start) → (∀ n ∈ M, e ≤ max (s.start n) q.start) →
      (e ≤ q.start ∨ e - 1 ∈ covered s t) →
      ∀ r, Visit.gap r ∈ nodeVisits s.r q e M ++ gapVisits q (lastEnd s.r e M) q.end →
        MaximalGap s t q r := by
  intro M
  induction M with
  | nil =>
    intro P C e hL _ hC hP _ he r hr
    have hr' : Visit.gap r ∈ gapVisits (ν := ν) q e q.end := by
      simpa [nodeVisits, lastEnd] using hr
    obtain ⟨h1, h2, h3⟩ := gap_of_mem_gapVisits hr'
    refine ⟨fun x hx1 hx2 hx => ?_, ?_, .inl (by rw [h2, Nat.min_self])⟩
    · -- the nodes before end at or before the gap, those after start after it
      obtain ⟨y, hy, hy1, hy2⟩ := mem_covered.1 hx
      rw [hL, List.append_nil, List.mem_append] at hy
      rcases hy with hy | hy
      · have := hP y hy
        omega
      · have := hC y hy x (by omega) (by omega)
        omega
    · -- the gap starts at the edge, or at the start of `q` when the edge lies before it
      by_cases heq : e ≤ q.start
      · exact .inl (by rw [h1]; omega)
      · rcases he with he | he
        · omega
        · exact .inr (by rwa [h1, show max e q.start = e by omega])
  | cons n M ih =>
    intro P C e hL hM hC hP he hedge r hr
    have hn := (meets_iff s.r q n).1 (hM n List.mem_cons_self)
    have hen := he n List.mem_cons_self
    have hL' : t.toList = P ++ n :: (M ++ C) := by rw [hL]; simp
    have hnL : n ∈ t.toList := by rw [hL']; simp
    have hn₀ := h.nonempty n hnL
    -- the nodes after `n` start at or after its end
    have hafter := (hL' ▸ h.chain).split.2
    simp only [RmState.start, RmState.end] at hP he hen hafter hn₀ ⊢
    rw [nodeVisits, lastEnd, List.append_assoc, List.mem_append, List.cons_append,
      List.mem_cons] at hr
    rcases hr with hr | hr | hr
    · -- the gap before `n`
      obtain ⟨h1, h2, h3⟩ := gap_of_mem_gapVisits hr
      refine ⟨fun x hx1 hx2 hx => ?_, ?_, ?_⟩
      · obtain ⟨y, hy, hy1, hy2⟩ := mem_covered.1 hx
        rw [hL', List.mem_append, List.mem_cons, List.mem_append] at hy
        simp only [RmState.start, RmState.end] at hy1 hy2
        rcases hy with hy | rfl | hy | hy
        · have := hP y hy
          omega
        · omega
        · have := hafter y (by simp [hy])
          omega
        · have := hC y hy x (by omega) (by omega)
          simp only [RmState.start] at this
          omega
      · by_cases heq : e ≤ q.start
        · exact .inl (by rw [h1]; omega)
        · rcases hedge with hedge | hedge
          · omega
          · exact .inr (by rwa [h1, show max e q.start = e by omega])
      · by_cases hnq : (s.r n).start < q.end
        · exact .inr (mem_covered_of_mem hnL (by simp [RmState.start]; omega)
            (by simp [RmState.end]; omega))
        · exact .inl (by omega)
    · cases hr
    · -- the rest, from the end of `n`
      refine ih (P ++ [n]) C (s.r n).end (by rw [hL']; simp) (fun x hx => hM x (by simp [hx]))
        hC (fun a ha => ?_) (fun x hx => ?_) (.inr ?_) r hr
      · rcases List.mem_append.1 ha with ha | ha
        · have := hP a ha
          simp only [RmState.end] at this ⊢
          omega
        · rw [List.mem_singleton.1 ha]
          simp only [RmState.end]
          omega
      · have := hafter x (by simp [hx])
        simp only [RmState.start]
        omega
      · exact mem_covered_of_mem hnL (by simp [RmState.start]; omega)
          (by simp [RmState.end]; omega)

omit [DecidableEq ν] in
theorem maximalGap_eq {g r : Range} (hg : MaximalGap s t q g) (hr : MaximalGap s t q r)
    (hgq : q.start ≤ g.start ∧ g.end ≤ q.end) (hrq : q.start ≤ r.start ∧ r.end ≤ q.end)
    (hr₀ : r.start < r.end) (h1 : g.start ≤ r.start) (h2 : r.start < g.end) : g = r := by
  obtain ⟨hgc, -, hge⟩ := hg
  obtain ⟨hrc, hrs, hre⟩ := hr
  -- `g` does not start before `r`: the point before `r` would be covered
  have hs : g.start = r.start := by
    by_contra hne
    rcases hrs with hrs | hrs
    · omega
    · exact hgc (r.start - 1) (by omega) (by omega) hrs
  -- nor end before or after it: its end, or the end of `r`, would be covered
  have he : g.end = r.end := by
    rcases lt_trichotomy g.end r.end with hlt | heq | hlt
    · rcases hge with hge | hge
      · omega
      · exact absurd hge (hrc g.end (by omega) hlt)
    · exact heq
    · rcases hre with hre | hre
      · omega
      · exact absurd hre (hgc r.end (by omega) hlt)
  cases g
  cases r
  dsimp only at hs he
  rw [hs, he]

end gaps

/-! ## `rangemap_range_lookup_with_gaps` -/

omit [DecidableEq ν] in
theorem lt_start_of_not_meets {s : RmState ν} {t : CTree ν} (h : WellFormed s t) {q : Range}
    {c : ν} (hc : c ∈ t.toList) (hm : meets s.r q c = false) (hqc : q.start < s.end c) :
    ∀ x, q.start ≤ x → x < q.end → x < s.start c := by
  intro x hx1 hx2
  have hc₀ := h.nonempty c hc
  rw [← Bool.not_eq_true, meets_iff] at hm
  simp only [RmState.start, RmState.end] at hc₀ hqc ⊢
  omega

omit [DecidableEq ν] in
/-- The visits of a lookup over `q` on a well-formed map: each node that meets `q` once and in
    order, pieces that tile `q` from its start to its end, and as gaps exactly the maximal parts
    of `q` that no node covers. -/
theorem visits_spec {s : RmState ν} {t : CTree ν} (h : WellFormed s t) (q : Range) :
    (visits s.r q (t.toList.filter (meets s.r q))).filterMap Visit.node? =
        t.toList.filter (meets s.r q) ∧
      Tiles Range.start Range.end q.start (max q.start q.end)
        ((visits s.r q (t.toList.filter (meets s.r q))).map (Visit.piece s.r q)) ∧
      ∀ r, Visit.gap r ∈ visits s.r q (t.toList.filter (meets s.r q)) ↔
        (q.start ≤ r.start ∧ r.end ≤ q.end ∧ r.start < r.end ∧ MaximalGap s t q r) := by
  obtain ⟨A, C, hL, -, hA, hC⟩ := split_meets h q
  have hM : ∀ n ∈ t.toList.filter (meets s.r q), meets s.r q n = true :=
    fun n hn => (List.mem_filter.1 hn).2
  have hnodes : (visits s.r q (t.toList.filter (meets s.r q))).filterMap Visit.node? =
      t.toList.filter (meets s.r q) := by
    rw [visits, List.filterMap_append, filterMap_nodeVisits, filterMap_gapVisits, List.append_nil]
  have htiles : Tiles Range.start Range.end q.start (max q.start q.end)
      ((visits s.r q (t.toList.filter (meets s.r q))).map (Visit.piece s.r q)) := by
    have := tiles_nodeVisits (R := s.r) (q := q) _ q.start hM
      (h.chain.sublist List.filter_sublist) fun n _ => le_max_right _ _
    rwa [show max q.start (min q.start q.end) = q.start by omega] at this
  have hmax : ∀ r, Visit.gap r ∈ visits s.r q (t.toList.filter (meets s.r q)) →
      MaximalGap s t q r :=
    maximalGap_of_mem h _ A C q.start hL hM
      (fun c hc => lt_start_of_not_meets h (by rw [hL]; simp [hc]) (hC c hc).1 (hC c hc).2)
      (fun a ha => (hA a ha).trans (le_max_left _ _)) (fun n _ => le_max_right _ _) (.inl le_rfl)
  refine ⟨hnodes, htiles, fun r => ⟨?_, ?_⟩⟩
  · -- a gap visit is a piece of the tiling of `q`
    intro hr
    obtain ⟨h1, h2, h3⟩ := htiles.mem_bounds _ (List.mem_map_of_mem hr)
    simp only [Visit.piece] at h1 h2 h3
    exact ⟨h1, by omega, h2, hmax r hr⟩
  · -- a maximal gap is the visit whose piece holds its start
    rintro ⟨hr1, hr2, hr3, hrmax⟩
    obtain ⟨p, hp, hp1, hp2⟩ := htiles.exists_mem hr1 (show r.start < max q.start q.end by omega)
    obtain ⟨v, hv, rfl⟩ := List.mem_map.1 hp
    cases v with
    | node n =>
      -- the part of a node is covered
      have hn : n ∈ t.toList.filter (meets s.r q) :=
        hnodes ▸ List.mem_filterMap.2 ⟨.node n, hv, rfl⟩
      have hmeet := (meets_iff s.r q n).1 (hM n hn)
      simp only [Visit.piece, rangeIntersection_of_lt hmeet] at hp1 hp2
      exact absurd (mem_covered_of_mem (List.mem_of_mem_filter hn)
        (by simp only [RmState.start]; omega) (by simp only [RmState.end]; omega))
        (hrmax.1 r.start le_rfl hr3)
    | gap g =>
      obtain ⟨hg1, hg2, hg3⟩ := htiles.mem_bounds _ hp
      simp only [Visit.piece] at hp1 hp2 hg1 hg2 hg3
      rwa [← maximalGap_eq (hmax g hv) hrmax ⟨hg1, by omega⟩ ⟨hr1, hr2⟩ hr3 hp1 hp2]

/-- On a well-formed map `rangemap_range_lookup_with_gaps` runs its handlers over one list of
    visits in order, stopping at the first that returns false: each node that meets `q` once,
    and each maximal part of `q` that no node covers once. The gaps and the parts of the nodes
    inside `q` tile `q` from its start to its end. -/
theorem rangemap_range_lookup_with_gaps_spec {s : RmState ν} {t : CTree ν} (h : WellFormed s t)
    (q : Range) (nh : σ → ν → σ × Bool) (gh : σ → Range → σ × Bool) (st : σ) :
    ∃ V : List (Visit ν),
      rangemapRangeLookupWithGaps s q nh gh st =
        some ((runVisits (Visit.apply (some nh) (some gh)) st V).1,
          if (runVisits (Visit.apply (some nh) (some gh)) st V).2 then
            (if V.isEmpty then .noMatch else .matched) else .abort) ∧
      V.filterMap Visit.node? = t.toList.filter (meets s.r q) ∧
      Tiles Range.start Range.end q.start (max q.start q.end) (V.map (Visit.piece s.r q)) ∧
      ∀ r, Visit.gap r ∈ V ↔
        (q.start ≤ r.start ∧ r.end ≤ q.end ∧ r.start < r.end ∧ MaximalGap s t q r) := by
  refine ⟨visits s.r q (t.toList.filter (meets s.r q)), ?_, visits_spec h q⟩
  -- both handlers are set, so every visit is handled
  rw [rangemapRangeLookupWithGaps, rangeLookupInternal_eq h, outcome,
    List.filter_eq_self.2 fun v _ => by cases v <;> rfl]

/-- The query `[0, 3)` over the one node `[0, 1)` of `oneRangeMap` visits the node and the
    gap `[1, 3)`, with handlers that count their calls. -/
theorem rangemap_range_lookup_with_gaps_one :
    ∃ V : List (Visit ℕ), V.filterMap Visit.node? = [0] ∧ Visit.gap ⟨1, 3⟩ ∈ V := by
  obtain ⟨V, -, hn, -, hg⟩ := rangemap_range_lookup_with_gaps_spec oneRangeMap_wellFormed ⟨0, 3⟩
    (fun (k : ℕ) (_ : ℕ) => (k + 1, true)) (fun k _ => (k + 1, true)) 0
  have hcov : ∀ x, x ∈ covered oneRangeMap (.node .black .nil 0 .nil) ↔ x < 1 := by
    intro x
    simp [mem_covered, oneRangeMap, RmState.start, RmState.end]
  refine ⟨V, by rw [hn]; decide, (hg _).2 ⟨by decide, by decide, by decide, ?_, .inr ?_, .inl rfl⟩⟩
  · intro x hx1 _ hx
    rw [hcov] at hx
    dsimp only at hx1
    omega
  · rw [hcov]
    decide

example : rangemapRangeLookupWithGaps oneRangeMap ⟨0, 3⟩ (fun (k : ℕ) (_ : ℕ) => (k + 1, true))
    (fun k _ => (k + 1, true)) 0 = some (2, .matched) := by
  decide


/-! ## First fit and intersection -/

section fit
variable {s : RmState ν} {t : CTree ν}

omit [DecidableEq ν] in
/-- On a well-formed map the visits of a lookup over `q` tile `q` into parts of nodes, which are
    covered, and gaps that no point of `q` next to them lengthens. -/
theorem gapTiling_visits (h : WellFormed s t) (q : Range) :
    GapTiling (fun v => (Visit.piece s.r q v).start) (fun v => (Visit.piece s.r q v).end)
      Visit.isGap (covered s t) q.start (max q.start q.end)
      (visits s.r q (t.toList.filter (meets s.r q))) := by
  obtain ⟨hnodes, htiles, hgaps⟩ := visits_spec h q
  refine ⟨(tiles_map _).1 htiles, fun v hv hg => ?_, fun v hv hg => ?_, fun v hv hg => ?_⟩
  · -- the part of a node inside `q` is covered
    cases v with
    | gap r => cases hg
    | node n =>
      have hn : n ∈ t.toList.filter (meets s.r q) :=
        hnodes ▸ List.mem_filterMap.2 ⟨.node n, hv, rfl⟩
      have hmeet := (meets_iff s.r q n).1 (List.mem_filter.1 hn).2
      intro x hx
      simp only [Visit.piece, rangeIntersection_of_lt hmeet, Set.mem_Ico] at hx
      exact mem_covered_of_mem (List.mem_of_mem_filter hn) (by simp only [RmState.start]; omega)
        (by simp only [RmState.end]; omega)
  · cases v with
    | node n => cases hg
    | gap r => exact Set.disjoint_left.2 fun x hx => ((hgaps r).1 hv).2.2.2.1 x hx.1 hx.2
  · cases v with
    | node n => cases hg
    | gap r =>
      obtain ⟨h1, h2, h3, -, -, hend⟩ := (hgaps r).1 hv
      rcases hend with he | he
      · exact .inl (by simp only [Visit.piece]; omega)
      · exact .inr he

omit [DecidableEq ν] in
theorem disjoint_of_end_le {q : Range} (hq : q.end ≤ q.start) (S : Set ℕ) :
    Disjoint (Set.Ico q.start q.end) S := by
  rw [Set.Ico_eq_empty (not_lt.2 hq)]
  exact Set.empty_disjoint S

/-- `rangemap_range_intersects(rm, q)` on a well-formed map: whether a node covers a point of
    `q`. Only the first node that ends after `q.start` is looked at, and it is the only one that
    can. -/
theorem rangeIntersects_spec (h : WellFormed s t) (q : Range) :
    ∃ b, rangemapRangeIntersects s q = some b ∧
      (b = true ↔ ¬Disjoint (Set.Ico q.start q.end) (covered s t)) := by
  unfold rangemapRangeIntersects
  rw [lookupAtOrNext_eq q.start h, Option.bind_eq_bind, Option.bind_some]
  cases hd : (t.toList.dropWhile fun y => s.end y ≤ q.start).head? with
  | none =>
    -- every node ends at or before `q.start`
    have hall : ∀ y ∈ t.toList, s.end y ≤ q.start := by
      simpa [List.dropWhile_eq_nil_iff] using hd
    refine ⟨false, by simp [intersectsLoop], iff_of_false (by simp) (not_not.2 ?_)⟩
    refine Set.disjoint_left.2 fun x hx hxc => ?_
    obtain ⟨y, hy, -, hyx⟩ := mem_covered.1 hxc
    have := hall y hy
    exact absurd hx.1 (by omega)
  | some x =>
    obtain ⟨A, B, ht, hA, hx⟩ := split_of_dropWhile hd
    have hxt : x ∈ t.toList := by simp [ht]
    simp only [decide_eq_true_eq, decide_eq_false_iff_not, not_le] at hA hx
    simp only [intersectsLoop, nextNode_eq h.treeOk hxt, Option.bind_eq_bind, Option.bind_some]
    by_cases hm : rangeSpan (rangeIntersection q (s.r x)) > 0
    · -- `q` meets `x`: the body sees it too
      have hm' : rangeSpan (rangeIntersection (s.r x) q) ≠ 0 := by
        rw [rangeIntersection_comm]
        omega
      refine ⟨true, by simp [hm, hm'], iff_of_true rfl fun hdis => ?_⟩
      have h0 := (rangeSpan_intersection_eq_zero_iff _ _).2
        (hdis.mono_right fun z hz => mem_covered_of_mem hxt hz.1 hz.2)
      omega
    · -- `q` misses `x`, so it misses every node
      refine ⟨false, by simp [hm], iff_of_false (by simp) (not_not.2 ?_)⟩
      by_cases hq : q.start < q.end
      · have hdis := (ht ▸ h.chain).disjoint_of_head (h.nonempty x hxt) hq hA hx
          ((rangeSpan_intersection_eq_zero_iff _ _).1 (by omega))
        refine Set.disjoint_left.2 fun z hz hzc => ?_
        obtain ⟨y, hy, hy1, hy2⟩ := mem_covered.1 hzc
        exact Set.disjoint_left.1 (hdis y (ht ▸ hy)) hz ⟨hy1, hy2⟩
      · exact disjoint_of_end_le (not_lt.1 hq) _

end fit

end Nanos.RangemapLookup
