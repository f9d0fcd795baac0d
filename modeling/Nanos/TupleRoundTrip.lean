import Nanos.TupleCodecSim

set_option autoImplicit false

/-!
# `encode_tuple` and `decode_value`: the round trip

On a well-formed store, `encode_tuple` returns with enough fuel: each level of its recursion
enters a tuple or vector it has not visited and marks it, so the depth is bounded by the
objects of the store. What it wrote from a fresh dictionary, `decode_value` reads back from a
fresh dictionary (as the unit test of `runtime/tuple.c` does with two dictionaries): the
decoder's heap gains one object for each object the encoder met, and each is the image of the
stored one, so shared objects stay shared and cycles stay cycles.
-/

namespace Nanos.TupleCodec

open IndexDict TupleEncoding

/-! ## The encoder returns -/

section Total
variable (S : List Node)

/-- The objects of the store not yet visited. -/
def unvisited (V : List ℕ) : ℕ := ((List.range S.length).filter fun o => o ∉ V).length

theorem unvisited_le {V V' : List ℕ} (h : V ⊆ V') : unvisited S V' ≤ unvisited S V :=
  (List.monotone_filter_right _ fun x hx => by
    simp only [decide_eq_true_eq] at hx ⊢
    exact fun hxV => hx (h hxV)).length_le

theorem unvisited_lt {V : List ℕ} {o : ℕ} (ho : o < S.length) (hV : o ∉ V) :
    unvisited S (V ++ [o]) < unvisited S V := by
  have hsub := List.monotone_filter_right (List.range S.length)
    (p := fun x => decide (x ∉ V ++ [o])) (q := fun x => decide (x ∉ V)) fun x hx => by
      simp only [decide_eq_true_eq, List.mem_append, not_or] at hx ⊢
      exact hx.1
  refine Nat.lt_of_le_of_ne hsub.length_le fun hlen => ?_
  have hmem : o ∈ (List.range S.length).filter fun x => decide (x ∉ V) := by simp [ho, hV]
  rw [← hsub.eq_of_length hlen] at hmem
  simp at hmem

theorem unvisited_nil : unvisited S [] = S.length := by
  simp [unvisited]

/-- An encoding step that only adds to the visited table. -/
def Visits (enc : Encoder → Val → Option Encoder) : Prop :=
  ∀ e v e', enc e v = some e' → e.visited ⊆ e'.visited

variable {S}

theorem pushHeader_some (b : List ℕ) {type : ℕ} (ht : type < 8) (imm len : ℕ) :
    ∃ b', pushHeader b imm type len = some b' := by
  unfold pushHeader
  exact ⟨_, if_pos ht⟩

theorem encodeSymbol_some (e : Encoder) (s : List ℕ) :
    ∃ e', encodeSymbol e s = some e' ∧ e'.visited = e.visited := by
  unfold encodeSymbol
  dsimp only
  split
  · obtain ⟨b', hb'⟩ := pushHeader_some e.dest (by decide : typeBuffer < 8) reference
      (find e.dict (.sym s))
    exact ⟨{ e with dest := b' }, by rw [hb']; rfl, rfl⟩
  · obtain ⟨b', hb'⟩ := pushHeader_some e.dest (by decide : typeBuffer < 8) immediate s.length
    exact ⟨{ e with dest := b' ++ s, dict := e.dict ++ [.sym s] }, by rw [pushBody, hb']; rfl, rfl⟩

theorem encodeObjHeader_some (e : Encoder) {type : ℕ} (ht : type < 8) (o count : ℕ) :
    ∃ e', encodeObjHeader e type o count = some e' ∧ e'.visited = e.visited := by
  unfold encodeObjHeader
  dsimp only
  split
  · obtain ⟨b', hb'⟩ := pushHeader_some e.dest ht reference count
    exact ⟨{ e with dest := pushVarint b' (find e.dict (.obj o)) }, by rw [hb']; rfl, rfl⟩
  · obtain ⟨b', hb'⟩ := pushHeader_some e.dest ht immediate count
    exact ⟨{ e with dest := b', dict := e.dict ++ [.obj o] }, by rw [hb']; rfl, rfl⟩

theorem encodeSymbol_visited {e e' : Encoder} {s : List ℕ} (h : encodeSymbol e s = some e') :
    e'.visited = e.visited := by
  obtain ⟨e'', h', hv⟩ := encodeSymbol_some e s
  rw [h, Option.some_inj] at h'
  rw [h', hv]

theorem encodeObjHeader_visited {e e' : Encoder} {type o count : ℕ}
    (h : encodeObjHeader e type o count = some e') : e'.visited = e.visited := by
  unfold encodeObjHeader at h
  dsimp only at h
  split at h <;> obtain ⟨dest, -, rfl⟩ := Option.map_eq_some_iff.1 h <;> rfl

theorem encodeEntries_visits {enc : Encoder → Val → Option Encoder} (henc : Visits enc) :
    ∀ (es : List (List ℕ × Val)) (e e' : Encoder), encodeEntries S enc e es = some e' →
      e.visited ⊆ e'.visited
  | [], e, e', h => by
    rw [encodeEntries, Option.some_inj] at h
    exact h ▸ List.Subset.refl _
  | (s, v) :: es, e, e', h => by
    rw [encodeEntries] at h
    split at h
    · exact encodeEntries_visits henc es e e' h
    · obtain ⟨e₁, h₁, h⟩ := Option.bind_eq_some_iff.1 h
      obtain ⟨e₂, h₂, h⟩ := Option.bind_eq_some_iff.1 h
      have h₃ := encodeEntries_visits henc es _ e' h
      have h₄ := henc _ _ _ h₂
      exact List.Subset.trans (encodeSymbol_visited h₁ ▸ h₄) h₃

theorem encodeElems_visits {enc : Encoder → Val → Option Encoder} (henc : Visits enc) :
    ∀ (vs : List Val) (e e' : Encoder), encodeElems S enc e vs = some e' →
      e.visited ⊆ e'.visited
  | [], e, e', h => by
    rw [encodeElems, Option.some_inj] at h
    exact h ▸ List.Subset.refl _
  | v :: vs, e, e', h => by
    rw [encodeElems] at h
    obtain ⟨e₁, h₁, h⟩ := Option.bind_eq_some_iff.1 h
    have h₂ := encodeElems_visits henc vs _ e' h
    exact List.Subset.trans (henc _ _ _ h₁) h₂

theorem encodeValue_visits (fuel : ℕ) : Visits (encodeValue S fuel) := by
  induction fuel with
  | zero => intro e v e' h; simp [encodeValue] at h
  | succ fuel ih =>
    intro e v e' h
    cases v with
    | obj o =>
      rw [encodeValue] at h
      split at h
      · unfold encodeTupleInternal at h
        generalize (if o ∈ e.visited then 0 else encodedCount S _) = count at h
        obtain ⟨e₁, h₁, h⟩ := Option.bind_eq_some_iff.1 h
        split at h
        · have h₂ := encodeEntries_visits ih _ _ _ h
          exact fun x hx => h₂ (List.mem_append_left _ (encodeObjHeader_visited h₁ ▸ hx))
        · rw [← Option.some_inj.1 h, encodeObjHeader_visited h₁]
          exact List.Subset.refl _
      · unfold encodeVectorInternal at h
        generalize (if o ∈ e.visited then 0 else List.length _) = count at h
        obtain ⟨e₁, h₁, h⟩ := Option.bind_eq_some_iff.1 h
        split at h
        · have h₂ := encodeElems_visits ih _ _ _ h
          exact fun x hx => h₂ (List.mem_append_left _ (encodeObjHeader_visited h₁ ▸ hx))
        · rw [← Option.some_inj.1 h, encodeObjHeader_visited h₁]
          exact List.Subset.refl _
      · exact absurd h (by simp)
    | symbol s => exact absurd h (by simp [encodeValue])
    | _ =>
      rw [encodeValue] at h
      obtain ⟨dest, -, rfl⟩ := Option.map_eq_some_iff.1 h
      exact List.Subset.refl _

theorem encodeEntries_some {enc : Encoder → Val → Option Encoder} (henc : Visits enc)
    {V : List ℕ} (hsome : ∀ e v, v.Fits S.length → V ⊆ e.visited → ∃ e', enc e v = some e') :
    ∀ (es : List (List ℕ × Val)) (e : Encoder), V ⊆ e.visited →
      (∀ x ∈ es, x.2.Fits S.length) → ∃ e', encodeEntries S enc e es = some e'
  | [], e, _, _ => ⟨e, rfl⟩
  | (s, v) :: es, e, hV, hfit => by
    rw [encodeEntries]
    split
    · exact encodeEntries_some henc hsome es e hV fun x hx => hfit x (List.mem_cons_of_mem _ hx)
    · obtain ⟨e₁, h₁, hv₁⟩ := encodeSymbol_some e s
      obtain ⟨e₂, h₂⟩ := hsome e₁ v (hfit (s, v) List.mem_cons_self) (hv₁ ▸ hV)
      have h₃ := henc _ _ _ h₂
      obtain ⟨e', h'⟩ := encodeEntries_some henc hsome es { e₂ with total := bump e₂.total }
        (List.Subset.trans (hv₁ ▸ hV) h₃) fun x hx => hfit x (List.mem_cons_of_mem _ hx)
      exact ⟨e', by simp only [Option.bind_eq_bind, h₁, Option.bind_some, h₂, h']⟩

theorem encodeElems_some {enc : Encoder → Val → Option Encoder} (henc : Visits enc)
    {V : List ℕ} (hsome : ∀ e v, v.Fits S.length → V ⊆ e.visited → ∃ e', enc e v = some e') :
    ∀ (vs : List Val) (e : Encoder), V ⊆ e.visited → (∀ v ∈ vs, v.Fits S.length) →
      ∃ e', encodeElems S enc e vs = some e'
  | [], e, _, _ => ⟨e, rfl⟩
  | v :: vs, e, hV, hfit => by
    rw [encodeElems]
    obtain ⟨e₁, h₁⟩ := hsome e (written S v) (Val.fits_written (hfit v List.mem_cons_self)) hV
    have h₂ := henc _ _ _ h₁
    obtain ⟨e', h'⟩ := encodeElems_some henc hsome vs { e₁ with total := bump e₁.total }
      (List.Subset.trans hV h₂) fun x hx => hfit x (List.mem_cons_of_mem _ hx)
    have h₁' : enc e (if noEncode S v then .none else v) = some e₁ := h₁
    exact ⟨e', by simp only [Option.bind_eq_bind, h₁', Option.bind_some, h']⟩

/-- `encode_value_internal` returns while fewer objects are unvisited than the fuel: each
    nesting enters an object not visited, and marks it. -/
theorem encodeValue_some (hS : WF S) : ∀ (fuel : ℕ) (e : Encoder) (v : Val),
    v.Fits S.length → unvisited S e.visited < fuel → ∃ e', encodeValue S fuel e v = some e'
  | 0, _, _, _, h => absurd h (Nat.not_lt_zero _)
  | fuel + 1, e, v, hv, hlt => by
    have hbody : ∀ type < 8, ∀ body, ∃ e', pushBody e immediate type body = some e' :=
      fun type ht body => let ⟨_, hb⟩ := pushHeader_some e.dest ht immediate body.length
        ⟨_, by rw [pushBody, hb]; rfl⟩
    cases v with
    | none =>
      obtain ⟨_, hb⟩ := pushHeader_some e.dest (by decide : typeBuffer < 8) immediate 0
      exact ⟨_, by rw [encodeValue, hb]; rfl⟩
    | integer z =>
      obtain ⟨_, hb⟩ := pushHeader_some e.dest (by decide : typeInteger < 8) immediate
        (if z < 0 then 1 else 0)
      exact ⟨_, by rw [encodeValue, encodeInteger, hb]; rfl⟩
    | string s => exact hbody _ (by decide) s
    | buffer b => exact hbody _ (by decide) b
    | null => exact hbody _ (by decide) [0]
    | symbol s => exact absurd hv id
    | obj o =>
      have ho : o < S.length := hv
      -- the nested values run with the object marked: one fewer unvisited
      have hsome : ∀ V, o ∉ e.visited → e.visited ++ [o] ⊆ V → ∀ e' v, v.Fits S.length →
          V ⊆ e'.visited → ∃ e'', encodeValue S fuel e' v = some e'' := by
        intro V hvis hV e' v hv' hV'
        refine encodeValue_some hS fuel e' v hv' (Nat.lt_of_le_of_lt (unvisited_le S (List.Subset.trans hV hV')) ?_)
        have := unvisited_lt S ho hvis
        omega
      rw [encodeValue]
      cases hn : S[o]? with
      | none => exact absurd hn (by simp [ho])
      | some n =>
        cases n with
        | tuple es =>
          obtain ⟨-, -, hfit⟩ := hS.tuple_fits hn
          unfold encodeTupleInternal
          obtain ⟨e₁, h₁, hv₁⟩ := encodeObjHeader_some e (by decide : typeTuple < 8) o
            (if o ∈ e.visited then 0 else encodedCount S es)
          by_cases hvis : o ∈ e.visited
          · rw [if_pos hvis] at h₁
            exact ⟨e₁, by simp only [Option.bind_eq_bind, if_pos hvis, h₁, Option.bind_some]; rfl⟩
          · rw [if_neg hvis] at h₁
            obtain ⟨e', h'⟩ := encodeEntries_some (encodeValue_visits fuel)
              (hsome _ hvis (List.Subset.refl _)) es { e₁ with visited := e₁.visited ++ [o] }
              (by rw [hv₁]; exact List.Subset.refl _) fun x hx => (hfit x hx).2.2
            by_cases hc : encodedCount S es > 0
            · exact ⟨e', by simp only [Option.bind_eq_bind, if_neg hvis, h₁, Option.bind_some,
                if_pos hc, h']⟩
            · exact ⟨e₁, by simp only [Option.bind_eq_bind, if_neg hvis, h₁, Option.bind_some,
                if_neg hc]⟩
        | vector vs =>
          obtain ⟨-, hfit⟩ := hS.vector_fits hn
          unfold encodeVectorInternal
          obtain ⟨e₁, h₁, hv₁⟩ := encodeObjHeader_some e (by decide : typeVector < 8) o
            (if o ∈ e.visited then 0 else vs.length)
          by_cases hvis : o ∈ e.visited
          · rw [if_pos hvis] at h₁
            exact ⟨e₁, by simp only [Option.bind_eq_bind, if_pos hvis, h₁, Option.bind_some]; rfl⟩
          · rw [if_neg hvis] at h₁
            obtain ⟨e', h'⟩ := encodeElems_some (encodeValue_visits fuel)
              (hsome _ hvis (List.Subset.refl _)) vs { e₁ with visited := e₁.visited ++ [o] }
              (by rw [hv₁]; exact List.Subset.refl _) hfit
            by_cases hc : vs.length > 0
            · exact ⟨e', by simp only [Option.bind_eq_bind, if_neg hvis, h₁, Option.bind_some,
                if_pos hc, h']⟩
            · exact ⟨e₁, by simp only [Option.bind_eq_bind, if_neg hvis, h₁, Option.bind_some,
                if_neg hc]⟩

/-- `encode_tuple` returns on every object of a well-formed store, whatever the dictionary
    holds, with fuel one past the number of objects. -/
theorem encodeTuple_some (hS : WF S) {t : ℕ} (ht : t < S.length) (pre : List ℕ)
    (dict : List Key) (total : Option ℕ) :
    ∃ e, encodeTuple S (S.length + 1) pre dict t total = some e :=
  encodeValue_some hS _ _ _ ht (by rw [unvisited_nil]; exact Nat.lt_succ_self _)

end Total

/-! ## The round trip -/

section RoundTrip
variable {S : List Node}

/-- What a decoder holds once it has read the encoding `e` of a store onto `heap`: every object
    the encoder recorded has a node of its own past `heap`, the image of the stored one, and
    the objects that node names were recorded too. -/
structure Restores (S : List Node) (e : Encoder) (heap : List Node) (d : Decoder) (f : ℕ → ℕ) :
    Prop where
  old : heap <+: d.heap
  inj : ∀ o o', Key.obj o ∈ e.dict → Key.obj o' ∈ e.dict → f o = f o' → o = o'
  fresh : ∀ o, Key.obj o ∈ e.dict → heap.length ≤ f o
  image : ∀ o, Key.obj o ∈ e.dict → ∃ n, S[o]? = some n ∧ d.heap[f o]? = some (imageNode S f n)
  closed : ∀ o n, S[o]? = some n → Key.obj o ∈ e.dict → ∀ o' ∈ refs S n, Key.obj o' ∈ e.dict

theorem forall₂_eq_map {α β : Type*} {r : α → β → Prop} {g : α → β}
    (hg : ∀ a b, r a b → b = g a) {l : List α} {l' : List β} (h : List.Forall₂ r l l') :
    l' = l.map g := by
  induction h with
  | nil => rfl
  | cons hab _ ih => rw [List.map_cons, hg _ _ hab, ih]

theorem forall₂_exists_of_mem {α β : Type*} {r : α → β → Prop} {l : List α} {l' : List β}
    (h : List.Forall₂ r l l') {a : α} (ha : a ∈ l) : ∃ b, r a b := by
  induction h with
  | nil => exact absurd ha List.not_mem_nil
  | @cons x y _ _ hxy _ ih =>
    rcases List.mem_cons.1 ha with rfl | ha
    · exact ⟨y, hxy⟩
    · exact ih ha

theorem prefix_of_getElem? {α : Type*} {l m : List α} (h : ∀ i < l.length, m[i]? = l[i]?) :
    l <+: m := by
  rw [List.prefix_iff_eq_take]
  refine List.ext_getElem? fun i => ?_
  rw [List.getElem?_take]
  split
  · exact (h i ‹_›).symm
  · rw [List.getElem?_eq_none (Nat.le_of_not_lt ‹_›)]

/-- Where the relation between objects is a function, the decoder's value is the image. -/
theorem ValRel.eq_imageVal {R : ℕ → ℕ → Prop} {f : ℕ → ℕ} (hf : ∀ o q, R o q → f o = q)
    {v w : Val} (h : ValRel R v w) : w = imageVal f v := by
  cases v with
  | obj o =>
    obtain ⟨q, hq, rfl⟩ := h
    rw [imageVal, hf o q hq]
  | _ => exact h

theorem NodeRel.eq_imageNode {R : ℕ → ℕ → Prop} {f : ℕ → ℕ} (hf : ∀ o q, R o q → f o = q)
    {n m : Node} (h : NodeRel S R n m) : m = imageNode S f n := by
  cases n <;> cases m <;> simp only [NodeRel] at h
  · rw [imageNode, forall₂_eq_map (fun x y hxy => ?_) h]
    rw [← hxy.2.eq_imageVal hf, hxy.1]
  · rw [imageNode, forall₂_eq_map (fun v w hvw => hvw.eq_imageVal hf) h]

theorem NodeRel.refs {R : ℕ → ℕ → Prop} {n m : Node} (h : NodeRel S R n m) {o : ℕ}
    (ho : o ∈ refs S n) : ∃ q, R o q := by
  cases n <;> cases m <;> simp only [NodeRel] at h <;> simp only [TupleCodec.refs, List.mem_filterMap] at ho
  · obtain ⟨x, hx, hxo⟩ := ho
    obtain ⟨y, -, hxy⟩ := forall₂_exists_of_mem h hx
    cases hv : x.2 with
    | obj o' =>
      rw [hv, Val.ref, Option.some_inj] at hxo
      subst hxo
      have := hv ▸ hxy
      obtain ⟨q, hq, -⟩ := this
      exact ⟨q, hq⟩
    | _ => simp [hv, Val.ref] at hxo
  · obtain ⟨v, hv, hvo⟩ := ho
    obtain ⟨w, hvw⟩ := forall₂_exists_of_mem h hv
    cases hw : written S v with
    | obj o' =>
      rw [hw, Val.ref, Option.some_inj] at hvo
      subst hvo
      have := hw ▸ hvw
      obtain ⟨q, hq, -⟩ := this
      exact ⟨q, hq⟩
    | _ => simp [hw, Val.ref] at hvo

/-- The decoder's object for each object the encoder recorded, read off the two dictionaries. -/
def dictImage (E D : List Key) (o : ℕ) : ℕ :=
  match D[find E (.obj o) - 1]? with
  | some (.obj q) => q
  | _ => 0

theorem dictImage_eq {E D : List Key} (hnd : E.Nodup) {o q : ℕ} (h : ObjRel E D o q) :
    dictImage E D o = q := by
  obtain ⟨i, hi, hq⟩ := h
  rw [dictImage, find, indexOf_of_getElem? hnd hi, Nat.add_sub_cancel, hq]

theorem objRel_dictImage {e : Encoder} {d : Decoder} (hd : Sim S e d) {o : ℕ}
    (ho : Key.obj o ∈ e.dict) : ObjRel e.dict d.dict o (dictImage e.dict d.dict o) := by
  obtain ⟨i, hi⟩ := List.mem_iff_getElem?.1 ho
  obtain ⟨k, hk, hr⟩ := Forall₂.getElem? hd.keys hi
  cases k with
  | sym _ => exact absurd hr id
  | obj q =>
    have hrel : ObjRel e.dict d.dict o q := ⟨i, hi, hk⟩
    rwa [dictImage_eq hd.nodup hrel]

/-- What `encode_tuple` wrote from a fresh dictionary, `decode_value` reads back from a fresh
    one: a new object for every tuple and vector the encoder met, each the image of the stored
    one; and the totals agree. -/
theorem decode_of_encodeTuple (hS : WF S) {fuel t : ℕ} {pre : List ℕ} {total : Option ℕ}
    {e : Encoder} (h : encodeTuple S fuel pre [] t total = some e) :
    ∃ bytes, e.dest = pre ++ bytes ∧ ∀ rest heap obsolete, ∃ d f,
      decodeValue false fuel ⟨bytes ++ rest, [], heap, total, obsolete⟩ = some (.obj (f t), d) ∧
      d.src = rest ∧ d.total = e.total ∧ d.obsolete = obsolete ∧ Key.obj t ∈ e.dict ∧
      Restores S e heap d f := by
  unfold encodeTuple at h
  obtain ⟨bytes, hbytes⟩ := encodeValue_dest S fuel _ _ _ h
  refine ⟨bytes, hbytes.symm, fun rest heap obsolete => ?_⟩
  have hd₀ : Sim S ⟨pre, [], [], total⟩ ⟨bytes ++ rest, [], heap, total, obsolete⟩ :=
    ⟨.nil, List.nodup_nil, List.nodup_nil, by simp, by simp, by simp, by simp, rfl⟩
  have ht : t < S.length := encodeValue_obj_lt S h
  obtain ⟨w, d, hdec, hsrc, hd, hw, hg⟩ :=
    encodeValue_sim hS fuel _ _ _ bytes h ht hbytes.symm _ rest hd₀ rfl
  have hf : ∀ o q, ObjRel e.dict d.dict o q → dictImage e.dict d.dict o = q :=
    fun _ _ => dictImage_eq hd.nodup
  -- each recorded object: its index, and the node `Grows` says is complete
  have hcomplete : ∀ o, Key.obj o ∈ e.dict →
      Complete S e.dict d.dict d.heap o (dictImage e.dict d.dict o) ∧
        heap.length ≤ dictImage e.dict d.dict o := by
    intro o ho
    obtain ⟨i, hi, hq⟩ := objRel_dictImage hd ho
    obtain ⟨hle, hc⟩ := hg.fresh i o _ (Nat.zero_le _) hi hq
    exact ⟨hc, hle⟩
  obtain ⟨q, hq, rfl⟩ := hw
  refine ⟨d, dictImage e.dict d.dict, by rw [hdec, hf t q hq], hsrc, hd.total, hg.obsolete,
    (let ⟨_, hi, _⟩ := hq; List.mem_of_getElem? hi), ⟨?_, ?_, fun o ho => (hcomplete o ho).2, ?_, ?_⟩⟩
  · exact prefix_of_getElem? fun i hi => hg.frame i hi not_false
  · intro o o' ho ho' hoo'
    have h1 := objRel_dictImage hd ho
    have h2 := objRel_dictImage hd ho'
    rw [← hoo'] at h2
    exact Key.obj.inj (Aligned.left_unique hd.dnodup h1 h2)
  · intro o ho
    obtain ⟨n, m, hn, hm, hnm⟩ := (hcomplete o ho).1
    exact ⟨n, hn, by rw [hm, hnm.eq_imageNode hf]⟩
  · intro o n hn ho o' ho'
    obtain ⟨n', m, hn', -, hnm⟩ := (hcomplete o ho).1
    rw [hn, Option.some_inj] at hn'
    subst hn'
    obtain ⟨q', i, hi, -⟩ := hnm.refs ho'
    exact List.mem_of_getElem? hi

/-- On a well-formed store, `encode_tuple` from a fresh dictionary returns, with fuel one past
    the number of objects, and `decode_value` from a fresh dictionary reads its bytes back
    followed by anything: a new object for every tuple and vector the encoder met, each the
    image of the stored one, sharing and cycles kept and distinct objects kept apart; the
    totals of the two sides agree and nothing is counted obsolete. -/
theorem encode_decode_tuple (hS : WF S) {t : ℕ} (ht : t < S.length) (pre : List ℕ)
    (total : Option ℕ) :
    ∃ e bytes, encodeTuple S (S.length + 1) pre [] t total = some e ∧ e.dest = pre ++ bytes ∧
      ∀ rest heap obsolete, ∃ d f,
        decodeValue false (S.length + 1) ⟨bytes ++ rest, [], heap, total, obsolete⟩ =
          some (.obj (f t), d) ∧
        d.src = rest ∧ d.total = e.total ∧ d.obsolete = obsolete ∧ Key.obj t ∈ e.dict ∧
        Restores S e heap d f := by
  obtain ⟨e, he⟩ := encodeTuple_some hS ht pre [] total
  obtain ⟨bytes, hbytes, hdec⟩ := decode_of_encodeTuple hS he
  exact ⟨e, bytes, he, hbytes, hdec⟩

/-- A tuple that names a vector twice, and the vector names the tuple back. -/
def cyclicStore : List Node :=
  [.tuple [([97], .obj 1), ([98], .obj 1), ([99], .integer (-5)), ([100], .string [])],
   .vector [.obj 0, .none, .null, .buffer [7, 8]]]

theorem encode_decode_tuple_cyclic :
    WF cyclicStore ∧ 0 < cyclicStore.length ∧
      ∃ e bytes, encodeTuple cyclicStore (cyclicStore.length + 1) [] [] 0 (some 0) = some e ∧
        e.dest = [] ++ bytes ∧
        ∀ rest heap obsolete, ∃ d f,
          decodeValue false (cyclicStore.length + 1) ⟨bytes ++ rest, [], heap, some 0, obsolete⟩ =
            some (.obj (f 0), d) ∧
          d.src = rest ∧ d.total = e.total ∧ d.obsolete = obsolete ∧ Key.obj 0 ∈ e.dict ∧
          Restores cyclicStore e heap d f :=
  ⟨by decide, by decide, encode_decode_tuple (by decide) (by decide) [] (some 0)⟩

end RoundTrip

end Nanos.TupleCodec
