import Nanos.TupleCodec
import Mathlib.Data.List.Perm.Subperm

set_option autoImplicit false

/-!
# `decode_value` reads back what `encode_tuple` writes

What the decoder rebuilds from a store is its image: every tuple and vector a new object, its
values renamed, `no_encode` entries left out, and values that read back as `0` not stored.
The encoder and the decoder run side by side: `Sim` says the two dictionaries record the same
things at the same indices, and `Grows` what one step does to the decoder. Each function of the
encoder is matched with the part of `decode_value` that reads what it wrote, and the value lemma
is by induction on the fuel both sides spend per nesting (`encodeValue_sim`).
-/

namespace Nanos.TupleCodec

open IndexDict TupleEncoding

/-! ## What decoding gives back -/

/-- A value other than a tuple or vector as `decode_value` reads it back: `0` for an empty
    string or buffer, `null_value` for the buffer of one zero byte. -/
def Val.decoded : Val → Val
  | .string s => if s = [] then .none else .string s
  | .buffer b => if b = [] then .none else if b = [0] then .null else .buffer b
  | v => v

def imageVal (f : ℕ → ℕ) : Val → Val
  | .obj o => .obj (f o)
  | v => v.decoded

section Image
variable (S : List Node)

def written (v : Val) : Val := if noEncode S v then .none else v

/-- The entries of a tuple the decoder sets: written, and not read back as `0`. -/
def kept (es : List (List ℕ × Val)) : List (List ℕ × Val) :=
  es.filter fun x => !noEncode S x.2 && x.2.decoded != .none

/-- The node the decoder builds for a stored one, the objects renamed by `f`. -/
def imageNode (f : ℕ → ℕ) : Node → Node
  | .tuple es => .tuple ((kept S es).map fun x => (x.1, imageVal f x.2))
  | .vector vs => .vector (vs.map fun v => imageVal f (written S v))

def Val.ref : Val → Option ℕ
  | .obj o => some o
  | _ => .none

def refs : Node → List ℕ
  | .tuple es => (kept S es).filterMap fun x => x.2.ref
  | .vector vs => vs.filterMap fun v => (written S v).ref

end Image

/-! ## Relating the two sides -/

/-- A value and the one the decoder returns for it, objects related by `R`. -/
def ValRel (R : ℕ → ℕ → Prop) : Val → Val → Prop
  | .obj o, w => ∃ q, R o q ∧ w = .obj q
  | v, w => w = v.decoded

def EntryRel (R : ℕ → ℕ → Prop) (x y : List ℕ × Val) : Prop := x.1 = y.1 ∧ ValRel R x.2 y.2

/-- A stored node and the node the decoder built for it. -/
def NodeRel (S : List Node) (R : ℕ → ℕ → Prop) : Node → Node → Prop
  | .tuple es, .tuple fs => List.Forall₂ (EntryRel R) (kept S es) fs
  | .vector vs, .vector ws => List.Forall₂ (fun v w => ValRel R (written S v) w) vs ws
  | _, _ => False

def KeyRel : Key → Key → Prop
  | .sym s, .sym s' => s = s'
  | .obj _, .obj _ => True
  | _, _ => False

/-- Object `o` of the store and object `q` of the decoder's heap are recorded at one index. -/
def ObjRel (E D : List Key) (o q : ℕ) : Prop := Aligned E D (.obj o) (.obj q)

theorem ValRel.mono {R R' : ℕ → ℕ → Prop} (hR : ∀ o q, R o q → R' o q) {v w : Val}
    (h : ValRel R v w) : ValRel R' v w := by
  cases v with
  | obj o =>
    obtain ⟨q, hq, rfl⟩ := h
    exact ⟨q, hR o q hq, rfl⟩
  | _ => exact h

theorem NodeRel.mono {S : List Node} {R R' : ℕ → ℕ → Prop} (hR : ∀ o q, R o q → R' o q)
    {n m : Node} (h : NodeRel S R n m) : NodeRel S R' n m := by
  cases n <;> cases m <;> simp only [NodeRel] at h ⊢
  · exact h.imp fun _ _ hxy => ⟨hxy.1, hxy.2.mono hR⟩
  · exact h.imp fun _ _ hvw => hvw.mono hR

theorem ObjRel.mono {E E' D D' : List Key} (hE : E <+: E') (hD : D <+: D') {o q : ℕ}
    (h : ObjRel E D o q) : ObjRel E' D' o q :=
  Aligned.mono hE hD h

theorem sym_mem_iff {E D : List Key} (h : List.Forall₂ KeyRel E D) (s : List ℕ) :
    Key.sym s ∈ D ↔ Key.sym s ∈ E := by
  induction h with
  | nil => simp
  | @cons a b E D hab _ ih =>
    cases a <;> cases b <;> simp only [KeyRel] at hab <;> simp [ih, hab]

/-! ## Well-formed stores -/

def Node.names : Node → List (List ℕ)
  | .tuple es => es.map Prod.fst
  | .vector _ => []

/-- A value the encoder can write and read back: an object of the store, an integer of `u64` or
    `s64`, a string or buffer whose length fits the header; never a symbol, which
    `encode_value_internal` would write as an untyped buffer. -/
def Val.Fits (n : ℕ) : Val → Prop
  | .obj o => o < n
  | .integer z => -(2 ^ 63 : ℤ) ≤ z ∧ z < 2 ^ 64
  | .string s => s.length < 2 ^ 64
  | .buffer b => b.length < 2 ^ 64
  | .symbol _ => False
  | .none | .null => True

/-- A table with distinct names, and lengths that fit the header. -/
def Node.Fits (n : ℕ) : Node → Prop
  | .tuple es =>
    (es.map Prod.fst).Nodup ∧ es.length < 2 ^ 64 ∧ ∀ x ∈ es, x.1.length < 2 ^ 64 ∧ x.2.Fits n
  | .vector vs => vs.length < 2 ^ 64 ∧ ∀ v ∈ vs, v.Fits n

instance (n : ℕ) (v : Val) : Decidable (v.Fits n) := by
  cases v <;> (unfold Val.Fits; infer_instance)

instance (n : ℕ) (m : Node) : Decidable (m.Fits n) := by
  cases m <;> (unfold Node.Fits; infer_instance)

def storeKeys (S : List Node) : List Key :=
  (List.range S.length).map Key.obj ++ (S.flatMap Node.names).map Key.sym

/-- A store the codec round trips: its nodes fit, and its dictionary indices fit a `u64`. -/
structure WF (S : List Node) : Prop where
  nodes : ∀ n ∈ S, n.Fits S.length
  size : (storeKeys S).length < 2 ^ 64

instance (S : List Node) : Decidable (WF S) :=
  decidable_of_iff ((∀ n ∈ S, n.Fits S.length) ∧ (storeKeys S).length < 2 ^ 64)
    ⟨fun ⟨h1, h2⟩ => ⟨h1, h2⟩, fun ⟨h1, h2⟩ => ⟨h1, h2⟩⟩

section Store
variable (S : List Node)

def objCount (o : ℕ) : ℕ :=
  match S[o]? with
  | some (.tuple es) => encodedCount S es
  | some (.vector vs) => vs.length
  | none => 0

/-- The decoder's node `q` is the image of the stored object `o`. -/
def Complete (E D : List Key) (H : List Node) (o q : ℕ) : Prop :=
  ∃ n m, S[o]? = some n ∧ H[q]? = some m ∧ NodeRel S (ObjRel E D) n m

/-- What holds between the encoder and the decoder at every point of the stream. -/
structure Sim (e : Encoder) (d : Decoder) : Prop where
  keys : List.Forall₂ KeyRel e.dict d.dict
  nodup : e.dict.Nodup
  dnodup : d.dict.Nodup
  inStore : ∀ k ∈ e.dict, k ∈ storeKeys S
  visited : ∀ o ∈ e.visited, Key.obj o ∈ e.dict
  settled : ∀ o, Key.obj o ∈ e.dict → o ∉ e.visited → objCount S o = 0
  heap : ∀ q, Key.obj q ∈ d.dict → q < d.heap.length
  total : d.total = e.total

/-- What a step of the decoder does, objects `hold` apart: the dictionaries and the heap grow,
    the other nodes stay, and each object recorded in the step is complete. -/
structure Grows (hold : ℕ → Prop) (e : Encoder) (d : Decoder) (e' : Encoder) (d' : Decoder) :
    Prop where
  edict : e.dict <+: e'.dict
  ddict : d.dict <+: d'.dict
  heap : d.heap.length ≤ d'.heap.length
  frame : ∀ q < d.heap.length, ¬ hold q → d'.heap[q]? = d.heap[q]?
  fresh : ∀ i o q, e.dict.length ≤ i → e'.dict[i]? = some (.obj o) → d'.dict[i]? = some (.obj q) →
    d.heap.length ≤ q ∧ Complete S e'.dict d'.dict d'.heap o q
  obsolete : d'.obsolete = d.obsolete

end Store

section Sim
variable {S : List Node}

theorem Sim.congr {e e' : Encoder} {d d' : Decoder} (h : Sim S e d) (h1 : e'.dict = e.dict)
    (h2 : e'.visited = e.visited) (h3 : d'.dict = d.dict) (h4 : d'.heap.length = d.heap.length)
    (h5 : d'.total = e'.total) : Sim S e' d' := by
  obtain ⟨keys, nodup, dnodup, inStore, visited, settled, heap, -⟩ := h
  refine ⟨?_, ?_, ?_, ?_, ?_, ?_, ?_, h5⟩ <;> simp only [h1, h2, h3, h4] <;> assumption

theorem Sim.length_eq {e : Encoder} {d : Decoder} (h : Sim S e d) :
    e.dict.length = d.dict.length :=
  h.keys.length_eq

theorem Sim.dict_length_lt {e : Encoder} {d : Decoder} (hS : WF S) (h : Sim S e d) :
    e.dict.length < 2 ^ 64 :=
  Nat.lt_of_le_of_lt (h.nodup.subperm h.inStore).length_le hS.size

theorem Sim.find_lt {e : Encoder} {d : Decoder} (hS : WF S) (h : Sim S e d) (k : Key) :
    find e.dict k < 2 ^ 64 :=
  Nat.lt_of_le_of_lt (indexOf_le_length _ _) (h.dict_length_lt hS)

theorem Complete.mono {E E' D D' : List Key} {H H' : List Node} {o q : ℕ} (hE : E <+: E')
    (hD : D <+: D') (hH : H'[q]? = H[q]?) (h : Complete S E D H o q) :
    Complete S E' D' H' o q := by
  obtain ⟨n, m, hn, hm, hnm⟩ := h
  exact ⟨n, m, hn, hH.trans hm, hnm.mono fun _ _ => ObjRel.mono hE hD⟩

theorem Grows.of_eq {hold : ℕ → Prop} {e e' : Encoder} {d d' : Decoder}
    (h1 : e'.dict = e.dict) (h2 : d'.dict = d.dict) (h3 : d'.heap = d.heap)
    (h4 : d'.obsolete = d.obsolete) : Grows S hold e d e' d' where
  edict := h1 ▸ List.prefix_refl _
  ddict := h2 ▸ List.prefix_refl _
  heap := h3 ▸ Nat.le_refl _
  frame _ _ _ := by rw [h3]
  fresh i _ _ hi h _ := by
    rw [h1] at h
    exact absurd (List.getElem?_eq_some_iff.1 h).1 (Nat.not_lt_of_le hi)
  obsolete := h4

theorem Grows.weaken {hold hold' : ℕ → Prop} (hh : ∀ q, hold q → hold' q) {e e' : Encoder}
    {d d' : Decoder} (h : Grows S hold e d e' d') : Grows S hold' e d e' d' :=
  { h with frame := fun q hq hn => h.frame q hq fun h' => hn (hh q h') }

end Sim

/-! ## Headers, varints and bodies -/

/-- A header `push_header` writes, read back by `pop_header` before any bytes. -/
theorem header_step {b b' : List ℕ} {imm type len : ℕ} (hi : imm ≤ 1) (ht : type < 8)
    (hl : len < 2 ^ 64) (h : pushHeader b imm type len = some b') :
    ∃ bytes, b' = b ++ bytes ∧ ∀ rest, popHeader false (bytes ++ rest) = some ((imm, type, len), rest) := by
  obtain ⟨bytes, hpush, -⟩ := pushHeader_popHeader hi ht hl b []
  refine ⟨bytes, Option.some_inj.1 (h.symm.trans hpush), fun rest => ?_⟩
  obtain ⟨bytes', hpush', hpop⟩ := pushHeader_popHeader hi ht hl b rest
  have : bytes' = bytes := List.append_cancel_left (Option.some_inj.1 (hpush'.symm.trans hpush))
  rwa [this] at hpop

theorem varint_step (b : List ℕ) {x : ℕ} (hx : x < 2 ^ 64) :
    ∃ bytes, pushVarint b x = b ++ bytes ∧ ∀ rest, popVarint (bytes ++ rest) = some (x, rest) := by
  obtain ⟨bytes, hpush, -, -⟩ := pushVarint_popVarint hx b []
  refine ⟨bytes, hpush, fun rest => ?_⟩
  obtain ⟨bytes', hpush', -, hpop⟩ := pushVarint_popVarint hx b rest
  have : bytes' = bytes := List.append_cancel_left (hpush'.symm.trans hpush)
  rwa [this] at hpop

theorem takeBody_append (body rest : List ℕ) :
    takeBody (body ++ rest) body.length = some (body, rest) := by
  simp [takeBody]

theorem pushBody_step {e e' : Encoder} {imm type : ℕ} {body : List ℕ} (hi : imm ≤ 1)
    (ht : type < 8) (hl : body.length < 2 ^ 64) (h : pushBody e imm type body = some e') :
    ∃ bytes, e' = { e with dest := e.dest ++ (bytes ++ body) } ∧
      ∀ rest, popHeader false (bytes ++ rest) = some ((imm, type, body.length), rest) := by
  obtain ⟨dest, hpush, rfl⟩ := Option.map_eq_some_iff.1 h
  obtain ⟨bytes, rfl, hpop⟩ := header_step hi ht hl hpush
  exact ⟨bytes, by rw [List.append_assoc], hpop⟩

theorem negS64_natAbs {z : ℤ} (hlo : -(2 ^ 63 : ℤ) ≤ z) (hz : z < 0) : negS64 z.natAbs = z := by
  have habs : (z.natAbs : ℤ) = -z := Int.ofNat_natAbs_of_nonpos (Int.le_of_lt hz)
  have hle : z.natAbs ≤ 2 ^ 63 := by omega
  rw [negS64, if_pos hle, habs, Int.neg_neg]

/-! ## The encoder only appends -/

section Appends
variable (S : List Node)

def Appends (enc : Encoder → Val → Option Encoder) : Prop :=
  ∀ e v e', enc e v = some e' → e.dest <+: e'.dest

theorem pushHeader_dest {b b' : List ℕ} {imm type len : ℕ}
    (h : pushHeader b imm type len = some b') : b <+: b' := by
  unfold pushHeader at h
  split at h
  · rw [← Option.some_inj.1 h]
    exact List.prefix_append _ _
  · exact absurd h (by simp)

theorem pushVarint_dest (b : List ℕ) (x : ℕ) : b <+: pushVarint b x :=
  List.prefix_append _ _

theorem pushBody_dest {e e' : Encoder} {imm type : ℕ} {body : List ℕ}
    (h : pushBody e imm type body = some e') : e.dest <+: e'.dest := by
  obtain ⟨dest, hpush, rfl⟩ := Option.map_eq_some_iff.1 h
  exact (pushHeader_dest hpush).trans (List.prefix_append _ _)

theorem encodeSymbol_dest {e e' : Encoder} {s : List ℕ} (h : encodeSymbol e s = some e') :
    e.dest <+: e'.dest := by
  unfold encodeSymbol at h
  dsimp only at h
  split at h
  · obtain ⟨dest, hpush, rfl⟩ := Option.map_eq_some_iff.1 h
    exact pushHeader_dest hpush
  · obtain ⟨e₁, hbody, rfl⟩ := Option.map_eq_some_iff.1 h
    have := pushBody_dest hbody
    exact this

theorem encodeObjHeader_dest {e e' : Encoder} {type o count : ℕ}
    (h : encodeObjHeader e type o count = some e') : e.dest <+: e'.dest := by
  unfold encodeObjHeader at h
  dsimp only at h
  split at h <;> obtain ⟨dest, hpush, rfl⟩ := Option.map_eq_some_iff.1 h
  · exact (pushHeader_dest hpush).trans (pushVarint_dest _ _)
  · exact pushHeader_dest hpush

theorem encodeEntries_dest {enc : Encoder → Val → Option Encoder} (henc : Appends enc) :
    ∀ (es : List (List ℕ × Val)) (e e' : Encoder), encodeEntries S enc e es = some e' →
      e.dest <+: e'.dest
  | [], e, e', h => by
    rw [encodeEntries, Option.some_inj] at h
    exact h ▸ List.prefix_refl _
  | (s, v) :: es, e, e', h => by
    rw [encodeEntries] at h
    split at h
    · exact encodeEntries_dest henc es e e' h
    · obtain ⟨e₁, h₁, h⟩ := Option.bind_eq_some_iff.1 h
      obtain ⟨e₂, h₂, h⟩ := Option.bind_eq_some_iff.1 h
      have h₃ := encodeEntries_dest henc es _ e' h
      exact (encodeSymbol_dest h₁).trans ((henc _ _ _ h₂).trans h₃)

theorem encodeElems_dest {enc : Encoder → Val → Option Encoder} (henc : Appends enc) :
    ∀ (vs : List Val) (e e' : Encoder), encodeElems S enc e vs = some e' → e.dest <+: e'.dest
  | [], e, e', h => by
    rw [encodeElems, Option.some_inj] at h
    exact h ▸ List.prefix_refl _
  | v :: vs, e, e', h => by
    rw [encodeElems] at h
    obtain ⟨e₁, h₁, h⟩ := Option.bind_eq_some_iff.1 h
    have h₂ := encodeElems_dest henc vs _ e' h
    exact (henc _ _ _ h₁).trans h₂

theorem encodeTupleInternal_dest {enc : Encoder → Val → Option Encoder} (henc : Appends enc)
    {e e' : Encoder} {o : ℕ} {es : List (List ℕ × Val)}
    (h : encodeTupleInternal S enc e o es = some e') : e.dest <+: e'.dest := by
  unfold encodeTupleInternal at h
  generalize (if o ∈ e.visited then 0 else encodedCount S es) = count at h
  obtain ⟨e₁, h₁, h⟩ := Option.bind_eq_some_iff.1 h
  split at h
  · have h₂ := encodeEntries_dest S henc _ _ _ h
    exact (encodeObjHeader_dest h₁).trans h₂
  · rw [← Option.some_inj.1 h]
    exact encodeObjHeader_dest h₁

theorem encodeVectorInternal_dest {enc : Encoder → Val → Option Encoder} (henc : Appends enc)
    {e e' : Encoder} {o : ℕ} {vs : List Val}
    (h : encodeVectorInternal S enc e o vs = some e') : e.dest <+: e'.dest := by
  unfold encodeVectorInternal at h
  generalize (if o ∈ e.visited then 0 else vs.length) = count at h
  obtain ⟨e₁, h₁, h⟩ := Option.bind_eq_some_iff.1 h
  split at h
  · have h₂ := encodeElems_dest S henc _ _ _ h
    exact (encodeObjHeader_dest h₁).trans h₂
  · rw [← Option.some_inj.1 h]
    exact encodeObjHeader_dest h₁

theorem encodeValue_dest (fuel : ℕ) : Appends (encodeValue S fuel) := by
  induction fuel with
  | zero => intro e v e' h; simp [encodeValue] at h
  | succ fuel ih =>
    intro e v e' h
    cases v with
    | none =>
      rw [encodeValue] at h
      obtain ⟨dest, hpush, rfl⟩ := Option.map_eq_some_iff.1 h
      exact pushHeader_dest hpush
    | obj o =>
      rw [encodeValue] at h
      split at h
      · exact encodeTupleInternal_dest S ih h
      · exact encodeVectorInternal_dest S ih h
      · exact absurd h (by simp)
    | integer z =>
      rw [encodeValue] at h
      obtain ⟨dest, hpush, rfl⟩ := Option.map_eq_some_iff.1 h
      exact (pushHeader_dest hpush).trans (pushVarint_dest _ _)
    | string s => rw [encodeValue] at h; exact pushBody_dest h
    | buffer b => rw [encodeValue] at h; exact pushBody_dest h
    | null => rw [encodeValue] at h; exact pushBody_dest h
    | symbol s => exact absurd h (by simp [encodeValue])

theorem encodeValue_obj_lt {fuel : ℕ} {e e' : Encoder} {o : ℕ}
    (h : encodeValue S fuel e (.obj o) = some e') : o < S.length := by
  cases fuel with
  | zero => simp [encodeValue] at h
  | succ fuel =>
    rw [encodeValue] at h
    cases ho : S[o]? with
    | none => rw [ho] at h; exact absurd h (by simp)
    | some n => exact (List.getElem?_eq_some_iff.1 ho).1

end Appends

/-! ## Values that are not objects -/

theorem decodeValue_header {fuel : ℕ} {d : Decoder} {imm type len : ℕ} {src : List ℕ}
    (h : popHeader false d.src = some ((imm, type, len), src)) :
    decodeValue false (fuel + 1) d = decodeBody false (decodeValue false fuel) imm type len { d with src } := by
  rw [decodeValue.eq_2, h]
  rfl

section Leaf
variable {S : List Node}

/-- The body of `decode_value` for an immediate string or untyped buffer of the given bytes. -/
theorem decodeBody_bytes (dec : Decoder → Option (Val × Decoder)) (d : Decoder)
    (body rest : List ℕ) {type : ℕ} (ht : type = typeString ∨ type = typeBuffer) :
    decodeBody false dec immediate type body.length { d with src := body ++ rest } =
      some ((if type = typeString then Val.string body else Val.buffer body).decoded,
        { d with src := if body = [] then body ++ rest else rest }) := by
  rcases ht with rfl | rfl
  · by_cases hb : body = []
    · subst hb
      rfl
    · have hl : body.length ≠ 0 := by simpa using hb
      simp [decodeBody, typeTuple, typeVector, typeInteger, typeString, immediate, hl,
        takeBody_append, Val.decoded, hb]
  · by_cases hb : body = []
    · subst hb
      rfl
    · have hl : body.length ≠ 0 := by simpa using hb
      by_cases h0 : body = [0]
      · subst h0
        rfl
      · have hnull : ¬ (body.length = 1 ∧ (body ++ rest).head? = some 0) := by
          rintro ⟨h1, h2⟩
          obtain ⟨a, rfl⟩ := List.length_eq_one_iff.1 h1
          simp_all
        unfold decodeBody
        rw [if_neg (by decide : ¬ typeBuffer = typeTuple), if_neg (by decide : ¬ typeBuffer = typeVector),
          if_neg (by decide : ¬ typeBuffer = typeInteger), if_neg hl,
          if_pos (rfl : immediate = immediate), if_neg (by decide : ¬ typeBuffer = typeString),
          if_neg hnull]
        simp [takeBody_append, Val.decoded, typeBuffer, typeString, hb, h0]

/-- A value that is not an object: `encode_value_internal` writes a header and a body that
    `decode_value` reads back as `v.decoded`, touching nothing but the buffers. -/
theorem encodeLeaf_step {fuel : ℕ} {e e' : Encoder} {v : Val} (hv : v.Fits S.length)
    (hobj : ∀ o, v ≠ .obj o) (h : encodeValue S (fuel + 1) e v = some e') :
    ∃ B, e' = { e with dest := e.dest ++ B } ∧ ∀ d rest, d.src = B ++ rest →
      decodeValue false (fuel + 1) d = some (v.decoded, { d with src := rest }) := by
  cases v with
  | none =>
    rw [encodeValue] at h
    obtain ⟨dest, hpush, rfl⟩ := Option.map_eq_some_iff.1 h
    obtain ⟨bytes, rfl, hpop⟩ := header_step (by decide) (by decide) (by decide) hpush
    refine ⟨bytes, rfl, fun d rest hsrc => ?_⟩
    rw [decodeValue_header (hsrc ▸ hpop rest)]
    rfl
  | obj o => exact absurd rfl (hobj o)
  | integer z =>
    rw [encodeValue] at h
    obtain ⟨dest, hpush, rfl⟩ := Option.map_eq_some_iff.1 h
    have hneg : (if z < 0 then 1 else 0) < 2 ^ 64 := by split <;> decide
    obtain ⟨hbytes, rfl, hpop⟩ := header_step (by decide) (by decide) hneg hpush
    have habs : z.natAbs < 2 ^ 64 := by
      obtain ⟨hlo, hhi⟩ := hv
      omega
    obtain ⟨vbytes, hvar, hpopv⟩ := varint_step (e.dest ++ hbytes) habs
    refine ⟨hbytes ++ vbytes, by rw [hvar, List.append_assoc], fun d rest hsrc => ?_⟩
    rw [decodeValue_header (hsrc ▸ List.append_assoc _ _ _ ▸ hpop (vbytes ++ rest))]
    simp only [decodeBody, typeTuple, typeVector, typeInteger, immediate, hpopv]
    by_cases hz : z < 0
    · simp [hz, negS64_natAbs hv.1 hz, Val.decoded]
    · simp [hz, Val.decoded]
      omega
  | string s =>
    rw [encodeValue] at h
    obtain ⟨bytes, rfl, hpop⟩ := pushBody_step (by decide) (by decide) hv h
    refine ⟨bytes ++ s, rfl, fun d rest hsrc => ?_⟩
    rw [decodeValue_header (hsrc ▸ List.append_assoc _ _ _ ▸ hpop (s ++ rest)),
      decodeBody_bytes _ _ s rest (Or.inl rfl)]
    by_cases hs : s = []
    · subst hs
      rfl
    · simp [hs, typeString]
  | buffer b =>
    rw [encodeValue] at h
    obtain ⟨bytes, rfl, hpop⟩ := pushBody_step (by decide) (by decide) hv h
    refine ⟨bytes ++ b, rfl, fun d rest hsrc => ?_⟩
    rw [decodeValue_header (hsrc ▸ List.append_assoc _ _ _ ▸ hpop (b ++ rest)),
      decodeBody_bytes _ _ b rest (Or.inr rfl)]
    by_cases hb : b = []
    · subst hb
      rfl
    · simp [hb, typeString, typeBuffer]
  | null =>
    rw [encodeValue] at h
    obtain ⟨bytes, rfl, hpop⟩ := pushBody_step (by decide) (by decide) (by decide) h
    refine ⟨bytes ++ [0], rfl, fun d rest hsrc => ?_⟩
    rw [decodeValue_header (hsrc ▸ List.append_assoc _ _ _ ▸ hpop ([0] ++ rest))]
    rfl
  | symbol s => exact absurd h (by simp [encodeValue])

end Leaf

/-! ## Recording and setting -/

section Steps
variable {S : List Node}

theorem nodup_concat_of_not_mem {α : Type*} {l : List α} {a : α} (h : l.Nodup) (ha : a ∉ l) :
    (l ++ [a]).Nodup :=
  List.nodup_append.2 ⟨h, List.nodup_singleton a, fun x hx y hy hxy => by
    rw [List.mem_singleton] at hy
    exact ha (hy ▸ hxy ▸ hx)⟩

theorem Sim.record_sym {e e' : Encoder} {d d' : Decoder} {s : List ℕ} (h : Sim S e d)
    (hs : Key.sym s ∈ storeKeys S) (hnew : Key.sym s ∉ e.dict) (h1 : e'.dict = e.dict ++ [.sym s])
    (h2 : e'.visited = e.visited) (h3 : d'.dict = d.dict ++ [.sym s])
    (h4 : d'.heap.length = d.heap.length) (h5 : d'.total = e'.total) : Sim S e' d' where
  keys := h1 ▸ h3 ▸ List.rel_append h.keys (List.Forall₂.cons rfl .nil)
  nodup := h1 ▸ nodup_concat_of_not_mem h.nodup hnew
  dnodup := h3 ▸ nodup_concat_of_not_mem h.dnodup ((sym_mem_iff h.keys s).not.2 hnew)
  inStore k hk := by
    rw [h1, List.mem_append, List.mem_singleton] at hk
    rcases hk with hk | rfl
    · exact h.inStore k hk
    · exact hs
  visited o ho := by
    rw [h1]
    exact List.mem_append_left _ (h.visited o (h2 ▸ ho))
  settled o ho hv := by
    rw [h1, List.mem_append, List.mem_singleton] at ho
    rcases ho with ho | ho
    · exact h.settled o ho (h2 ▸ hv)
    · exact Key.noConfusion ho
  heap q hq := by
    rw [h3, List.mem_append, List.mem_singleton] at hq
    rcases hq with hq | hq
    · exact h4 ▸ h.heap q hq
    · exact Key.noConfusion hq
  total := h5

/-- Both sides record an object the encoder had not recorded: the encoder marks it visited or
    has nothing of it to write, and the decoder allocates a node for it. -/
theorem Sim.record_obj {e e' : Encoder} {d d' : Decoder} {o : ℕ} {n : Node} (h : Sim S e d)
    (ho : o < S.length) (hnew : Key.obj o ∉ e.dict) (h1 : e'.dict = e.dict ++ [.obj o])
    (h2 : e'.visited = e.visited ∨ e'.visited = e.visited ++ [o])
    (hset : o ∈ e'.visited ∨ objCount S o = 0) (h3 : d'.dict = d.dict ++ [.obj d.heap.length])
    (h4 : d'.heap = d.heap ++ [n]) (h5 : d'.total = e'.total) : Sim S e' d' where
  keys := h1 ▸ h3 ▸ List.rel_append h.keys (List.Forall₂.cons trivial .nil)
  nodup := h1 ▸ nodup_concat_of_not_mem h.nodup hnew
  dnodup := h3 ▸ nodup_concat_of_not_mem h.dnodup fun hq => Nat.lt_irrefl _ (h.heap _ hq)
  inStore k hk := by
    rw [h1, List.mem_append, List.mem_singleton] at hk
    rcases hk with hk | rfl
    · exact h.inStore k hk
    · exact List.mem_append_left _ (List.mem_map.2 ⟨o, List.mem_range.2 ho, rfl⟩)
  visited x hx := by
    rw [h1]
    have : x ∈ e.visited ∨ x = o := by
      rcases h2 with h2 | h2 <;> rw [h2] at hx <;> simp_all
    rcases this with hx | rfl
    · exact List.mem_append_left _ (h.visited x hx)
    · exact List.mem_append_right _ (List.mem_singleton_self _)
  settled x hx hv := by
    rw [h1, List.mem_append, List.mem_singleton] at hx
    rcases hx with hx | hx
    · refine h.settled x hx fun hv' => hv ?_
      rcases h2 with h2 | h2 <;> rw [h2]
      · exact hv'
      · exact List.mem_append_left _ hv'
    · cases hx
      exact hset.resolve_left hv
  heap q hq := by
    rw [h3, List.mem_append, List.mem_singleton] at hq
    rw [h4, List.length_append, List.length_singleton]
    rcases hq with hq | hq
    · exact Nat.lt_succ_of_lt (h.heap q hq)
    · cases hq
      exact Nat.lt_succ_self _
  total := h5

theorem Grows.trans {hold : ℕ → Prop} {e e₁ e₂ : Encoder} {d d₁ d₂ : Decoder}
    (h₁ : Grows S hold e d e₁ d₁) (h₂ : Grows S hold e₁ d₁ e₂ d₂) (hs : Sim S e₁ d₁)
    (hh : ∀ q, d.heap.length ≤ q → ¬ hold q) : Grows S hold e d e₂ d₂ where
  edict := h₁.edict.trans h₂.edict
  ddict := h₁.ddict.trans h₂.ddict
  heap := Nat.le_trans h₁.heap h₂.heap
  frame q hq hn := by
    rw [h₂.frame q (Nat.lt_of_lt_of_le hq h₁.heap) hn, h₁.frame q hq hn]
  fresh i o q hi he hd := by
    by_cases hi₁ : e₁.dict.length ≤ i
    · obtain ⟨hq, hc⟩ := h₂.fresh i o q hi₁ he hd
      exact ⟨Nat.le_trans h₁.heap hq, hc⟩
    · -- recorded in the first step, and left in place by the second
      have hi₁ : i < e₁.dict.length := Nat.lt_of_not_le hi₁
      have he₁ : e₁.dict[i]? = some (.obj o) := (getElem?_of_prefix_of_lt h₂.edict hi₁).symm.trans he
      have hd₁ : d₁.dict[i]? = some (.obj q) :=
        (getElem?_of_prefix_of_lt h₂.ddict (hs.length_eq ▸ hi₁)).symm.trans hd
      obtain ⟨hq, hc⟩ := h₁.fresh i o q hi he₁ hd₁
      have hq₁ : q < d₁.heap.length := hs.heap q (List.mem_of_getElem? hd₁)
      exact ⟨hq, hc.mono h₂.edict h₂.ddict (h₂.frame q hq₁ (hh q hq))⟩
  obsolete := h₂.obsolete.trans h₁.obsolete

theorem Grows.of_set {e e' : Encoder} {d d' : Decoder} {p : ℕ} {n : Node}
    (h1 : e'.dict = e.dict) (h2 : d'.dict = d.dict) (h3 : d'.heap = d.heap.set p n)
    (h4 : d'.obsolete = d.obsolete) : Grows S (· = p) e d e' d' where
  edict := h1 ▸ List.prefix_refl _
  ddict := h2 ▸ List.prefix_refl _
  heap := Nat.le_of_eq (by rw [h3, List.length_set])
  frame q _ hq := by rw [h3, List.getElem?_set_ne (Ne.symm hq)]
  fresh i _ _ hi h _ := by
    rw [h1] at h
    exact absurd (List.getElem?_eq_some_iff.1 h).1 (Nat.not_lt_of_le hi)
  obsolete := h4

theorem Grows.of_record {e e₁ e' : Encoder} {d d₁ d' : Decoder} {o : ℕ} {n : Node}
    (hs : Sim S e d) (hg : Grows S (· = d.heap.length) e₁ d₁ e' d')
    (h1 : e₁.dict = e.dict ++ [.obj o]) (h2 : d₁.dict = d.dict ++ [.obj d.heap.length])
    (h3 : d₁.heap = d.heap ++ [n]) (h4 : d₁.obsolete = d.obsolete)
    (hc : Complete S e'.dict d'.dict d'.heap o d.heap.length) : Grows S (fun _ => False) e d e' d' where
  edict := (h1 ▸ List.prefix_append _ _ : e.dict <+: e₁.dict).trans hg.edict
  ddict := (h2 ▸ List.prefix_append _ _ : d.dict <+: d₁.dict).trans hg.ddict
  heap := Nat.le_trans (by rw [h3, List.length_append]; exact Nat.le_add_right _ _) hg.heap
  frame q hq _ := by
    have hq₁ : q < d₁.heap.length := by rw [h3, List.length_append]; omega
    rw [hg.frame q hq₁ (Nat.ne_of_lt hq), h3, List.getElem?_append_left hq]
  fresh i o' q hi he hd := by
    by_cases hi₁ : e₁.dict.length ≤ i
    · obtain ⟨hq, hc'⟩ := hg.fresh i o' q hi₁ he hd
      refine ⟨Nat.le_trans ?_ hq, hc'⟩
      rw [h3, List.length_append]
      exact Nat.le_add_right _ _
    · -- the object recorded at the start
      have hi₁ : i = e.dict.length := by
        rw [h1, List.length_append, List.length_singleton] at hi₁
        omega
      subst hi₁
      have he₁ : e₁.dict[e.dict.length]? = some (.obj o) := by simp [h1]
      have hd₁ : d₁.dict[e.dict.length]? = some (.obj d.heap.length) := by
        simp [h2, hs.length_eq]
      have hlt : e.dict.length < e₁.dict.length := by simp [h1]
      rw [getElem?_of_prefix_of_lt hg.edict hlt, he₁, Option.some_inj, Key.obj.injEq] at he
      have hlt' : e.dict.length < d₁.dict.length := by simp [h2, hs.length_eq]
      rw [getElem?_of_prefix_of_lt hg.ddict hlt', hd₁, Option.some_inj, Key.obj.injEq] at hd
      subst he hd
      exact ⟨Nat.le_refl _, hc⟩
  obsolete := hg.obsolete.trans h4

/-- `set_new_value` on a tuple that does not hold the name: the entry is added unless the
    value is `0`, and nothing becomes obsolete. -/
theorem setNewValue_tuple {d : Decoder} {p : ℕ} {acc : List (List ℕ × Val)} {s : List ℕ}
    (hp : d.heap[p]? = some (.tuple acc)) (hs : s ∉ acc.map Prod.fst) (nv : Val) :
    setNewValue (.obj p) (.sym s) nv d = some { d with
      heap := d.heap.set p (.tuple (acc ++ if nv = .none then [] else [(s, nv)])),
      total := bump d.total } := by
  have hget : getAttr (.tuple acc) (.sym s) = .none := by
    have hlookup : acc.lookup s = none := by
      rw [List.lookup_eq_none_iff]
      intro x hx
      simp only [bne_iff_ne, ne_eq]
      intro hxs
      exact hs (List.mem_map.2 ⟨x, hx, by simp [hxs]⟩)
    rw [getAttr, hlookup]
    rfl
  have hset : tupleSet acc s nv = acc ++ if nv = .none then [] else [(s, nv)] := by
    by_cases hnv : nv = .none
    · rw [tupleSet, if_pos hnv, if_pos hnv, List.append_nil, List.filter_eq_self]
      intro x hx
      simp only [bne_iff_ne, ne_eq]
      intro hxs
      exact hs (List.mem_map.2 ⟨x, hx, by simp [hxs]⟩)
    · have hany : (acc.any fun x => x.1 == s) = false := by
        rw [List.any_eq_false]
        intro x hx hxs
        exact hs (List.mem_map.2 ⟨x, hx, beq_iff_eq.1 hxs⟩)
      rw [tupleSet, if_neg hnv, if_neg hnv, hany]
      rfl
  simp only [setNewValue, hp, Option.bind_eq_bind, Option.bind_some, setAttr, hget, hset,
    countObsolete]
  cases d.obsolete <;> simp

/-- `set_new_value` at the next index of a vector: the element is appended. -/
theorem setNewValue_vector {d : Decoder} {p : ℕ} {acc : List Val}
    (hp : d.heap[p]? = some (.vector acc)) (nv : Val) :
    setNewValue (.obj p) (.index acc.length) nv d = some { d with
      heap := d.heap.set p (.vector (acc ++ [nv])), total := bump d.total } := by
  have hset : vectorSet acc acc.length nv = acc ++ [nv] := by
    simp [vectorSet]
  have hget : getAttr (.vector acc) (.index acc.length) = .none := by
    simp [getAttr]
  simp only [setNewValue, hp, Option.bind_eq_bind, Option.bind_some, setAttr, hget, hset,
    countObsolete]
  cases d.obsolete <;> simp

end Steps

/-! ## Names -/

section Names
variable {S : List Node}

theorem Grows.of_sym {hold : ℕ → Prop} {e e' : Encoder} {d d' : Decoder} {s : List ℕ}
    (h1 : e'.dict = e.dict ++ [.sym s]) (h2 : d'.dict = d.dict ++ [.sym s]) (h3 : d'.heap = d.heap)
    (h4 : d'.obsolete = d.obsolete) : Grows S hold e d e' d' where
  edict := h1 ▸ List.prefix_append _ _
  ddict := h2 ▸ List.prefix_append _ _
  heap := h3 ▸ Nat.le_refl _
  frame _ _ _ := by rw [h3]
  fresh i o _ hi h _ := by
    rw [h1] at h
    rcases Nat.eq_or_lt_of_le hi with rfl | hi
    · simp at h
    · rw [List.getElem?_eq_none (by rw [List.length_append, List.length_singleton]; omega)] at h
      exact absurd h (by simp)
  obsolete := h4

/-- `encode_symbol` and the name the loop of `decode_value` reads: the symbol by its index
    once recorded, else its bytes, recorded on both sides. -/
theorem encodeSymbol_sim (hS : WF S) {e e₁ : Encoder} {s : List ℕ} (hs : Key.sym s ∈ storeKeys S)
    (hl : s.length < 2 ^ 64) (h : encodeSymbol e s = some e₁) {B : List ℕ}
    (hB : e₁.dest = e.dest ++ B) {d : Decoder} {rest : List ℕ} (hd : Sim S e d)
    (hsrc : d.src = B ++ rest) :
    ∃ d₁, popName false d = some (s, d₁) ∧ d₁.src = rest ∧ Sim S e₁ d₁ ∧
      Grows S (fun _ => False) e d e₁ d₁ := by
  unfold encodeSymbol at h
  dsimp only at h
  split at h
  · -- recorded: a reference to its index
    rename_i hind
    obtain ⟨dest, hpush, rfl⟩ := Option.map_eq_some_iff.1 h
    obtain ⟨bytes, rfl, hpop⟩ := header_step (by decide) (by decide) (hd.find_lt hS _) hpush
    obtain rfl := List.append_cancel_left hB
    obtain ⟨b, hb, hr, -⟩ := keyAt_indexOf hd.keys hind
    cases b with
    | obj q => exact absurd hr id
    | sym s' =>
      cases hr
      refine ⟨{ d with src := rest }, ?_, rfl, hd.congr rfl rfl rfl rfl hd.total,
        Grows.of_eq rfl rfl rfl rfl⟩
      rw [popName, hsrc, hpop rest]
      simp [reference, dictFind, find, hb]
  · -- new: its bytes, recorded on both sides
    rename_i hind
    obtain ⟨e', hbody, rfl⟩ := Option.map_eq_some_iff.1 h
    obtain ⟨bytes, rfl, hpop⟩ := pushBody_step (by decide) (by decide) hl hbody
    obtain rfl := List.append_cancel_left hB
    have hnew : Key.sym s ∉ e.dict := indexOf_eq_zero_iff.1 (not_not.1 hind)
    refine ⟨{ d with src := rest, dict := d.dict ++ [.sym s] }, ?_, rfl,
      hd.record_sym hs hnew rfl rfl rfl rfl hd.total, Grows.of_sym rfl rfl rfl rfl⟩
    rw [popName, hsrc, List.append_assoc, hpop (s ++ rest)]
    simp [immediate, takeBody_append]

end Names

/-! ## The loops over entries and elements -/

theorem prefix_split {α : Type*} {a b c B : List α} (h1 : a <+: b) (h2 : b <+: c)
    (h : c = a ++ B) : ∃ B₁ B₂, b = a ++ B₁ ∧ c = b ++ B₂ ∧ B = B₁ ++ B₂ := by
  obtain ⟨B₁, rfl⟩ := h1
  obtain ⟨B₂, rfl⟩ := h2
  exact ⟨B₁, B₂, rfl, rfl, List.append_cancel_left (h.symm.trans (List.append_assoc _ _ _))⟩

section Loops
variable (S : List Node)

/-- One value written by `enc` is read back by `dec`, for any bytes that follow. -/
def ValueSim (enc : Encoder → Val → Option Encoder) (dec : Decoder → Option (Val × Decoder)) :
    Prop :=
  ∀ e v e' B, enc e v = some e' → v.Fits S.length → e'.dest = e.dest ++ B →
    ∀ d rest, Sim S e d → d.src = B ++ rest →
      ∃ w d', dec d = some (w, d') ∧ d'.src = rest ∧ Sim S e' d' ∧
        ValRel (ObjRel e'.dict d'.dict) v w ∧ Grows S (fun _ => False) e d e' d'

variable {S}

theorem encodedCount_cons (s : List ℕ) (v : Val) (es : List (List ℕ × Val)) :
    encodedCount S ((s, v) :: es) = if noEncode S v then encodedCount S es else encodedCount S es + 1 := by
  by_cases h : noEncode S v <;> simp [encodedCount, h]

theorem kept_cons (s : List ℕ) (v : Val) (es : List (List ℕ × Val)) :
    kept S ((s, v) :: es) =
      if noEncode S v ∨ v.decoded = .none then kept S es else (s, v) :: kept S es := by
  by_cases h : noEncode S v <;> by_cases h' : v.decoded = .none <;> simp [kept, h, h']

theorem ValRel.eq_none_iff {R : ℕ → ℕ → Prop} {v w : Val} (h : ValRel R v w) :
    w = .none ↔ v.decoded = .none := by
  cases v with
  | obj o =>
    obtain ⟨q, -, rfl⟩ := h
    simp [Val.decoded]
  | _ => exact h ▸ Iff.rfl

theorem Val.fits_written {n : ℕ} {v : Val} (h : v.Fits n) : (written S v).Fits n := by
  unfold written
  split
  · trivial
  · exact h

theorem encodeEntries_sim (hS : WF S) {enc : Encoder → Val → Option Encoder}
    {dec : Decoder → Option (Val × Decoder)} (happ : Appends enc) (hval : ValueSim S enc dec)
    (p : ℕ) :
    ∀ (es : List (List ℕ × Val)) (e e' : Encoder) (B : List ℕ), encodeEntries S enc e es = some e' →
      e'.dest = e.dest ++ B → (es.map Prod.fst).Nodup →
      (∀ x ∈ es, Key.sym x.1 ∈ storeKeys S ∧ x.1.length < 2 ^ 64 ∧ x.2.Fits S.length) →
      ∀ (d : Decoder) (rest : List ℕ) (acc : List (List ℕ × Val)), Sim S e d → d.src = B ++ rest →
        d.heap[p]? = some (.tuple acc) → (∀ x ∈ es, x.1 ∉ acc.map Prod.fst) →
        ∃ d' fs, decodeEntries false dec (.obj p) (encodedCount S es) d = some d' ∧
          d'.src = rest ∧ Sim S e' d' ∧ d'.heap[p]? = some (.tuple (acc ++ fs)) ∧
          List.Forall₂ (EntryRel (ObjRel e'.dict d'.dict)) (kept S es) fs ∧
          Grows S (· = p) e d e' d'
  | [], e, e', B, h, hB, _, _, d, rest, acc, hd, hsrc, hp, _ => by
    rw [encodeEntries, Option.some_inj] at h
    subst h
    obtain rfl : B = [] := by simpa using hB
    exact ⟨d, [], rfl, by simpa using hsrc, hd, by simpa using hp, .nil, Grows.of_eq rfl rfl rfl rfl⟩
  | (s, v) :: es, e, e', B, h, hB, hnd, hfit, d, rest, acc, hd, hsrc, hp, hacc => by
    rw [List.map_cons, List.nodup_cons] at hnd
    have hfit' := fun x hx => hfit x (List.mem_cons_of_mem (s, v) hx)
    have hacc' := fun x hx => hacc x (List.mem_cons_of_mem (s, v) hx)
    rw [encodeEntries] at h
    by_cases hne : noEncode S v
    · -- a `no_encode` entry: neither side sees it
      rw [if_pos hne] at h
      obtain ⟨d', fs, hdec, hsrc', hd', hp', hfs, hg⟩ :=
        encodeEntries_sim hS happ hval p es e e' B h hB hnd.2 hfit' d rest acc hd hsrc hp hacc'
      refine ⟨d', fs, ?_, hsrc', hd', hp', ?_, hg⟩
      · rwa [encodedCount_cons, if_pos hne]
      · rwa [kept_cons, if_pos (Or.inl hne)]
    rw [if_neg hne] at h
    obtain ⟨e₁, h₁, h⟩ := Option.bind_eq_some_iff.1 h
    obtain ⟨e₂, h₂, h⟩ := Option.bind_eq_some_iff.1 h
    have hrest := encodeEntries_dest S happ _ _ _ h
    obtain ⟨B₁, B', hB₁, hB', rfl⟩ :=
      prefix_split (encodeSymbol_dest h₁) ((happ _ _ _ h₂).trans hrest) hB
    obtain ⟨B₂, B₃, hB₂, hB₃, rfl⟩ := prefix_split (happ _ _ _ h₂) hrest hB'
    obtain ⟨hsk, hsl, hvf⟩ := hfit (s, v) List.mem_cons_self
    -- the name, then the value
    obtain ⟨d₁, hname, hsrc₁, hd₁, hg₁⟩ :=
      encodeSymbol_sim hS hsk hsl h₁ hB₁ hd (by rw [hsrc, List.append_assoc])
    obtain ⟨w, d₂, hdec₂, hsrc₂, hd₂, hw, hg₂⟩ :=
      hval e₁ v e₂ B₂ h₂ hvf hB₂ d₁ (B₃ ++ rest) hd₁ (by rw [hsrc₁, List.append_assoc])
    -- the tuple is left in place by both, and `set_new_value` adds the entry
    have hpl : p < d.heap.length := (List.getElem?_eq_some_iff.1 hp).1
    have hpl₂ : p < d₂.heap.length := Nat.lt_of_lt_of_le hpl (Nat.le_trans hg₁.heap hg₂.heap)
    have hp₂ : d₂.heap[p]? = some (.tuple acc) := by
      rw [hg₂.frame p (Nat.lt_of_lt_of_le hpl hg₁.heap) not_false, hg₁.frame p hpl not_false, hp]
    have hset := setNewValue_tuple hp₂ (hacc (s, v) List.mem_cons_self) w
    have hd₃ : Sim S { e₂ with total := bump e₂.total } { d₂ with
        heap := d₂.heap.set p (.tuple (acc ++ if w = .none then [] else [(s, w)])),
        total := bump d₂.total } :=
      hd₂.congr rfl rfl rfl (List.length_set ..) (by rw [hd₂.total])
    have hacc₃ : ∀ x ∈ es, x.1 ∉ (acc ++ if w = .none then [] else [(s, w)]).map Prod.fst := by
      intro x hx hmem
      rw [List.map_append, List.mem_append] at hmem
      rcases hmem with hmem | hmem
      · exact hacc' x hx hmem
      · split at hmem
        · exact List.not_mem_nil hmem
        · rw [List.map_singleton, List.mem_singleton] at hmem
          exact hnd.1 (hmem ▸ List.mem_map.2 ⟨x, hx, rfl⟩)
    obtain ⟨d', fs', hdec', hsrc', hd', hp', hfs', hg'⟩ :=
      encodeEntries_sim hS happ hval p es _ e' B₃ h hB₃ hnd.2 hfit' _ rest _ hd₃
        (by rw [← hsrc₂]) (List.getElem?_set_self hpl₂) hacc₃
    refine ⟨d', (if w = .none then [] else [(s, w)]) ++ fs', ?_, hsrc', hd', by
      rw [hp', List.append_assoc], ?_, ?_⟩
    · rw [encodedCount_cons, if_neg hne, decodeEntries]
      simp only [Option.bind_eq_bind, hname, Option.bind_some, hdec₂, hset, hdec']
    · -- the entry is kept exactly when its value does not read back as `0`
      rw [kept_cons]
      by_cases hw0 : w = .none
      · rw [if_pos (Or.inr ((hw.eq_none_iff).1 hw0)), if_pos hw0]
        exact hfs'
      · rw [if_neg (not_or.2 ⟨hne, (hw.eq_none_iff).not.1 hw0⟩), if_neg hw0]
        exact .cons ⟨rfl, hw.mono fun _ _ => ObjRel.mono hg'.edict hg'.ddict⟩ hfs'
    · have hh : ∀ d'' : Decoder, d.heap.length ≤ d''.heap.length →
          ∀ q, d''.heap.length ≤ q → ¬ q = p := fun _ hle q hq hqp => by omega
      have hg₃ : Grows S (· = p) e₂ d₂ { e₂ with total := bump e₂.total } { d₂ with
          heap := d₂.heap.set p (.tuple (acc ++ if w = .none then [] else [(s, w)])),
          total := bump d₂.total } := Grows.of_set rfl rfl rfl rfl
      exact (hg₁.weaken fun _ => False.elim).trans ((hg₂.weaken fun _ => False.elim).trans
        (hg₃.trans hg' hd₃ (hh _ (Nat.le_trans hg₁.heap hg₂.heap))) hd₂ (hh _ hg₁.heap)) hd₁
        (hh _ (Nat.le_refl _))

theorem encodeElems_sim (hS : WF S) {enc : Encoder → Val → Option Encoder}
    {dec : Decoder → Option (Val × Decoder)} (happ : Appends enc) (hval : ValueSim S enc dec)
    (p : ℕ) :
    ∀ (vs : List Val) (e e' : Encoder) (B : List ℕ), encodeElems S enc e vs = some e' →
      e'.dest = e.dest ++ B → (∀ v ∈ vs, v.Fits S.length) →
      ∀ (d : Decoder) (rest : List ℕ) (acc : List Val), Sim S e d → d.src = B ++ rest →
        d.heap[p]? = some (.vector acc) →
        ∃ d' ws, decodeElems dec (.obj p) vs.length acc.length d = some d' ∧ d'.src = rest ∧
          Sim S e' d' ∧ d'.heap[p]? = some (.vector (acc ++ ws)) ∧
          List.Forall₂ (fun v w => ValRel (ObjRel e'.dict d'.dict) (written S v) w) vs ws ∧
          Grows S (· = p) e d e' d'
  | [], e, e', B, h, hB, _, d, rest, acc, hd, hsrc, hp => by
    rw [encodeElems, Option.some_inj] at h
    subst h
    obtain rfl : B = [] := by simpa using hB
    exact ⟨d, [], rfl, by simpa using hsrc, hd, by simpa using hp, .nil, Grows.of_eq rfl rfl rfl rfl⟩
  | v :: vs, e, e', B, h, hB, hfit, d, rest, acc, hd, hsrc, hp => by
    rw [encodeElems] at h
    obtain ⟨e₁, h₁, h⟩ := Option.bind_eq_some_iff.1 h
    have hrest := encodeElems_dest S happ _ _ _ h
    obtain ⟨B₁, B₂, hB₁, hB₂, rfl⟩ := prefix_split (happ _ _ _ h₁) hrest hB
    obtain ⟨w, d₁, hdec₁, hsrc₁, hd₁, hw, hg₁⟩ :=
      hval e (written S v) e₁ B₁ h₁ (Val.fits_written (hfit v List.mem_cons_self)) hB₁ d
        (B₂ ++ rest) hd (by rw [hsrc, List.append_assoc])
    -- the vector is left in place, and `set_new_value` appends the element
    have hpl : p < d.heap.length := (List.getElem?_eq_some_iff.1 hp).1
    have hpl₁ : p < d₁.heap.length := Nat.lt_of_lt_of_le hpl hg₁.heap
    have hp₁ : d₁.heap[p]? = some (.vector acc) := by rw [hg₁.frame p hpl not_false, hp]
    have hset := setNewValue_vector hp₁ w
    have hd₂ : Sim S { e₁ with total := bump e₁.total } { d₁ with
        heap := d₁.heap.set p (.vector (acc ++ [w])), total := bump d₁.total } :=
      hd₁.congr rfl rfl rfl (List.length_set ..) (by rw [hd₁.total])
    obtain ⟨d', ws', hdec', hsrc', hd', hp', hws', hg'⟩ :=
      encodeElems_sim hS happ hval p vs _ e' B₂ h hB₂
        (fun x hx => hfit x (List.mem_cons_of_mem v hx)) _ rest _ hd₂ (by rw [← hsrc₁])
        (List.getElem?_set_self hpl₁)
    refine ⟨d', w :: ws', ?_, hsrc', hd', by rw [hp', List.append_assoc, List.singleton_append],
      .cons (hw.mono fun _ _ => ObjRel.mono hg'.edict hg'.ddict) hws', ?_⟩
    · rw [List.length_cons, decodeElems]
      simp only [Option.bind_eq_bind, hdec₁, Option.bind_some, hset]
      rw [← hdec', List.length_append, List.length_singleton]
    · have hh : ∀ d'' : Decoder, d.heap.length ≤ d''.heap.length →
          ∀ q, d''.heap.length ≤ q → ¬ q = p := fun _ hle q hq hqp => by omega
      have hg₂ : Grows S (· = p) e₁ d₁ { e₁ with total := bump e₁.total } { d₁ with
          heap := d₁.heap.set p (.vector (acc ++ [w])), total := bump d₁.total } :=
        Grows.of_set rfl rfl rfl rfl
      exact (hg₁.weaken fun _ => False.elim).trans (hg₂.trans hg' hd₂ (hh _ hg₁.heap)) hd₁
        (hh _ (Nat.le_refl _))

end Loops

/-! ## Tuples and vectors -/

section Objects
variable {S : List Node}

theorem WF.tuple_fits (hS : WF S) {o : ℕ} {es : List (List ℕ × Val)}
    (hes : S[o]? = some (.tuple es)) :
    (es.map Prod.fst).Nodup ∧ es.length < 2 ^ 64 ∧
      ∀ x ∈ es, Key.sym x.1 ∈ storeKeys S ∧ x.1.length < 2 ^ 64 ∧ x.2.Fits S.length := by
  obtain ⟨hnd, hlen, hfit⟩ := hS.nodes _ (List.mem_of_getElem? hes)
  refine ⟨hnd, hlen, fun x hx => ⟨?_, hfit x hx⟩⟩
  refine List.mem_append_right _ (List.mem_map.2 ⟨x.1, ?_, rfl⟩)
  exact List.mem_flatMap.2 ⟨_, List.mem_of_getElem? hes, List.mem_map.2 ⟨x, hx, rfl⟩⟩

theorem WF.vector_fits (hS : WF S) {o : ℕ} {vs : List Val} (hvs : S[o]? = some (.vector vs)) :
    vs.length < 2 ^ 64 ∧ ∀ v ∈ vs, v.Fits S.length :=
  hS.nodes _ (List.mem_of_getElem? hvs)

theorem kept_eq_nil {es : List (List ℕ × Val)} (h : encodedCount S es = 0) : kept S es = [] := by
  rw [encodedCount, List.length_eq_zero_iff, List.filter_eq_nil_iff] at h
  rw [kept, List.filter_eq_nil_iff]
  intro x hx hkeep
  rw [Bool.and_eq_true] at hkeep
  exact h x hx hkeep.1

theorem encodedCount_lt {es : List (List ℕ × Val)} (h : es.length < 2 ^ 64) :
    encodedCount S es < 2 ^ 64 :=
  Nat.lt_of_le_of_lt (List.length_filter_le _ _) h

theorem decodeBody_tuple_ref (dec : Decoder → Option (Val × Decoder)) (len : ℕ) (d : Decoder) :
    decodeBody false dec reference typeTuple len d =
      (popIndirect d).bind fun (t, d) => (decodeEntries false dec t len d).bind fun d' => some (t, d') :=
  rfl

theorem decodeBody_tuple_imm (dec : Decoder → Option (Val × Decoder)) (len : ℕ) (d : Decoder) :
    decodeBody false dec immediate typeTuple len d =
      (decodeEntries false dec (.obj d.heap.length) len { d with
        heap := d.heap ++ [.tuple []], dict := d.dict ++ [.obj d.heap.length] }).bind
        fun d' => some (.obj d.heap.length, d') :=
  rfl

theorem decodeBody_vector_ref (dec : Decoder → Option (Val × Decoder)) (len : ℕ) (d : Decoder) :
    decodeBody false dec reference typeVector len d =
      (popIndirect d).bind fun (v, d) => (decodeElems dec v len 0 d).bind fun d' => some (v, d') :=
  rfl

theorem decodeBody_vector_imm (dec : Decoder → Option (Val × Decoder)) (len : ℕ) (d : Decoder) :
    decodeBody false dec immediate typeVector len d =
      (decodeElems dec (.obj d.heap.length) len 0 { d with
        heap := d.heap ++ [.vector []], dict := d.dict ++ [.obj d.heap.length] }).bind
        fun d' => some (.obj d.heap.length, d') :=
  rfl

/-- The header of an object the dictionary holds: a reference, and its index as a varint, which
    `pop_indirect_value` resolves to the decoder's object at that index. -/
theorem encodeObjHeader_ref (hS : WF S) {e e₁ : Encoder} {d : Decoder} (hd : Sim S e d)
    {type o count : ℕ} (ht : type < 8) (hc : count < 2 ^ 64) (hfind : find e.dict (.obj o) ≠ 0)
    (h : encodeObjHeader e type o count = some e₁) {B rest : List ℕ} (hB : e₁.dest = e.dest ++ B)
    (hsrc : d.src = B ++ rest) :
    e₁ = { e with dest := e₁.dest } ∧ ∃ src₁ q,
      popHeader false d.src = some ((reference, type, count), src₁) ∧
      popIndirect { d with src := src₁ } = some (.obj q, { d with src := rest }) ∧
      ObjRel e.dict d.dict o q := by
  unfold encodeObjHeader at h
  dsimp only at h
  rw [if_pos hfind] at h
  obtain ⟨dest, hpush, rfl⟩ := Option.map_eq_some_iff.1 h
  obtain ⟨hb, rfl, hpop⟩ := header_step (by decide) ht hc hpush
  obtain ⟨vb, hvar, hpopv⟩ := varint_step (e.dest ++ hb) (hd.find_lt hS (.obj o))
  dsimp only at hB
  rw [hvar, List.append_assoc] at hB
  obtain rfl := List.append_cancel_left hB
  obtain ⟨k, hk, hr, hal⟩ := keyAt_indexOf hd.keys hfind
  cases k with
  | sym _ => exact absurd hr id
  | obj q =>
    refine ⟨rfl, vb ++ rest, q, by rw [hsrc, List.append_assoc, hpop], ?_, hal⟩
    simp [popIndirect, hpopv, dictFind, find, hk, Key.val]

/-- The header of an object the dictionary does not hold: immediate, and recorded. -/
theorem encodeObjHeader_imm {e e₁ : Encoder} {type o count : ℕ} (ht : type < 8)
    (hc : count < 2 ^ 64) (hfind : find e.dict (.obj o) = 0)
    (h : encodeObjHeader e type o count = some e₁) :
    ∃ hb, e₁ = { e with dest := e.dest ++ hb, dict := e.dict ++ [.obj o] } ∧
      ∀ rest, popHeader false (hb ++ rest) = some ((immediate, type, count), rest) := by
  unfold encodeObjHeader at h
  dsimp only at h
  rw [if_neg (not_not.2 hfind)] at h
  obtain ⟨dest, hpush, rfl⟩ := Option.map_eq_some_iff.1 h
  obtain ⟨hb, rfl, hpop⟩ := header_step (by decide) ht hc hpush
  exact ⟨hb, rfl, hpop⟩

theorem count_eq_zero_of_mem {e : Encoder} {d : Decoder} (hd : Sim S e d) {o n : ℕ}
    (hmem : find e.dict (.obj o) ≠ 0) (hn : S[o]? ≠ none → objCount S o = n) :
    (if o ∈ e.visited then 0 else n) = 0 := by
  split
  · rfl
  · rename_i hv
    have hin : Key.obj o ∈ e.dict := not_not.1 (mt indexOf_eq_zero_iff.2 hmem)
    have hset := hd.settled o hin hv
    have ho : S[o]? ≠ none := fun hno => by
      have := hd.inStore _ hin
      simp only [storeKeys, List.mem_append, List.mem_map, List.mem_range] at this
      rcases this with ⟨x, hx, hxo⟩ | ⟨x, -, hxo⟩
      · cases hxo
        exact absurd hno (by simp [hx])
      · exact Key.noConfusion hxo
    rw [← hn ho, hset]

theorem encodeTupleInternal_sim (hS : WF S) {fuel : ℕ}
    (ih : ValueSim S (encodeValue S fuel) (decodeValue false fuel)) {e e' : Encoder} {o : ℕ}
    {es : List (List ℕ × Val)} (hes : S[o]? = some (.tuple es))
    (h : encodeTupleInternal S (encodeValue S fuel) e o es = some e') {B : List ℕ}
    (hB : e'.dest = e.dest ++ B) {d : Decoder} {rest : List ℕ} (hd : Sim S e d)
    (hsrc : d.src = B ++ rest) :
    ∃ w d', decodeValue false (fuel + 1) d = some (w, d') ∧ d'.src = rest ∧ Sim S e' d' ∧
      ValRel (ObjRel e'.dict d'.dict) (.obj o) w ∧ Grows S (fun _ => False) e d e' d' := by
  obtain ⟨hnd, hlen, hfit⟩ := hS.tuple_fits hes
  have ho : o < S.length := (List.getElem?_eq_some_iff.1 hes).1
  unfold encodeTupleInternal at h
  obtain ⟨e₁, h₁, h⟩ := Option.bind_eq_some_iff.1 h
  by_cases hfind : find e.dict (.obj o) = 0
  · -- first met: an immediate header, a new tuple on both sides, then its entries
    have hnew : Key.obj o ∉ e.dict := indexOf_eq_zero_iff.1 hfind
    have hnv : o ∉ e.visited := fun hv => hnew (hd.visited o hv)
    rw [if_neg hnv] at h₁ h
    obtain ⟨hb, rfl, hpop⟩ := encodeObjHeader_imm (by decide) (encodedCount_lt hlen) hfind h₁
    have hcount : objCount S o = encodedCount S es := by simp [objCount, hes]
    by_cases hc : encodedCount S es > 0
    · rw [if_pos hc] at h
      have happ := encodeValue_dest S fuel
      obtain ⟨B₁, B₂, hB₁, hB₂, rfl⟩ :=
        prefix_split (List.prefix_append e.dest hb) (encodeEntries_dest S happ _ _ _ h) hB
      have hb₁ := List.append_cancel_left hB₁
      subst hb₁
      have hd₁ : Sim S
          { e with
            dest := e.dest ++ hb, dict := e.dict ++ [.obj o], visited := e.visited ++ [o] }
          { d with
            src := B₂ ++ rest, heap := d.heap ++ [.tuple []], dict := d.dict ++ [.obj d.heap.length] } :=
        hd.record_obj ho hnew rfl (Or.inr rfl)
          (Or.inl (List.mem_append_right _ (List.mem_singleton_self o))) rfl rfl hd.total
      obtain ⟨d', fs, hdec, hsrc', hd', hp', hfs, hg⟩ :=
        encodeEntries_sim hS happ ih d.heap.length es _ e' B₂ h hB₂ hnd hfit _ rest [] hd₁ rfl
          (by simp) (by simp)
      refine ⟨.obj d.heap.length, d', ?_, hsrc', hd', ⟨d.heap.length, ?_, rfl⟩, ?_⟩
      · rw [decodeValue_header (by rw [hsrc, List.append_assoc, hpop]), decodeBody_tuple_imm, hdec]
        rfl
      · exact ObjRel.mono hg.edict hg.ddict (aligned_concat hd.length_eq _ _)
      · exact Grows.of_record hd hg rfl rfl rfl rfl ⟨_, _, hes, hp', hfs⟩
    · -- nothing to write: the header alone, and an empty tuple
      rw [if_neg hc, Option.some_inj] at h
      subst h
      have hzero : encodedCount S es = 0 := Nat.eq_zero_of_not_pos hc
      have hb := List.append_cancel_left hB
      subst hb
      have hd₁ : Sim S
          { e with dest := e.dest ++ hb, dict := e.dict ++ [.obj o] }
          { d with
            src := rest, heap := d.heap ++ [.tuple []], dict := d.dict ++ [.obj d.heap.length] } :=
        hd.record_obj ho hnew rfl (Or.inl rfl) (Or.inr (hcount.trans hzero)) rfl rfl hd.total
      refine ⟨.obj d.heap.length, { d with
          src := rest, heap := d.heap ++ [.tuple []], dict := d.dict ++ [.obj d.heap.length] },
        ?_, rfl, hd₁, ⟨d.heap.length, aligned_concat hd.length_eq _ _, rfl⟩,
        Grows.of_record hd (Grows.of_eq rfl rfl rfl rfl) rfl rfl rfl rfl
          ⟨.tuple es, .tuple [], hes, by simp, by simp [NodeRel, kept_eq_nil hzero]⟩⟩
      rw [decodeValue_header (by rw [hsrc, hpop]), decodeBody_tuple_imm, hzero]
      rfl
  · -- met before: a reference and no entries
    have hzero : (if o ∈ e.visited then 0 else encodedCount S es) = 0 :=
      count_eq_zero_of_mem hd hfind fun _ => by simp [objCount, hes]
    rw [hzero] at h₁ h
    rw [if_neg (Nat.lt_irrefl 0), Option.some_inj] at h
    subst h
    obtain ⟨he₁, src₁, q, hpop, hind, hal⟩ :=
      encodeObjHeader_ref hS hd (by decide) (by decide) hfind h₁ hB hsrc
    rw [he₁]
    refine ⟨.obj q, { d with src := rest }, ?_, rfl, hd.congr rfl rfl rfl rfl hd.total,
      ⟨q, hal, rfl⟩, Grows.of_eq rfl rfl rfl rfl⟩
    rw [decodeValue_header hpop, decodeBody_tuple_ref, hind]
    rfl

theorem encodeVectorInternal_sim (hS : WF S) {fuel : ℕ}
    (ih : ValueSim S (encodeValue S fuel) (decodeValue false fuel)) {e e' : Encoder} {o : ℕ}
    {vs : List Val} (hvs : S[o]? = some (.vector vs))
    (h : encodeVectorInternal S (encodeValue S fuel) e o vs = some e') {B : List ℕ}
    (hB : e'.dest = e.dest ++ B) {d : Decoder} {rest : List ℕ} (hd : Sim S e d)
    (hsrc : d.src = B ++ rest) :
    ∃ w d', decodeValue false (fuel + 1) d = some (w, d') ∧ d'.src = rest ∧ Sim S e' d' ∧
      ValRel (ObjRel e'.dict d'.dict) (.obj o) w ∧ Grows S (fun _ => False) e d e' d' := by
  obtain ⟨hlen, hfit⟩ := hS.vector_fits hvs
  have ho : o < S.length := (List.getElem?_eq_some_iff.1 hvs).1
  unfold encodeVectorInternal at h
  obtain ⟨e₁, h₁, h⟩ := Option.bind_eq_some_iff.1 h
  by_cases hfind : find e.dict (.obj o) = 0
  · -- first met: an immediate header, a new vector on both sides, then its elements
    have hnew : Key.obj o ∉ e.dict := indexOf_eq_zero_iff.1 hfind
    have hnv : o ∉ e.visited := fun hv => hnew (hd.visited o hv)
    rw [if_neg hnv] at h₁ h
    obtain ⟨hb, rfl, hpop⟩ := encodeObjHeader_imm (by decide) hlen hfind h₁
    by_cases hc : vs.length > 0
    · rw [if_pos hc] at h
      have happ := encodeValue_dest S fuel
      obtain ⟨B₁, B₂, hB₁, hB₂, rfl⟩ :=
        prefix_split (List.prefix_append e.dest hb) (encodeElems_dest S happ _ _ _ h) hB
      have hb₁ := List.append_cancel_left hB₁
      subst hb₁
      have hd₁ : Sim S
          { e with
            dest := e.dest ++ hb, dict := e.dict ++ [.obj o], visited := e.visited ++ [o] }
          { d with
            src := B₂ ++ rest, heap := d.heap ++ [.vector []], dict := d.dict ++ [.obj d.heap.length] } :=
        hd.record_obj ho hnew rfl (Or.inr rfl)
          (Or.inl (List.mem_append_right _ (List.mem_singleton_self o))) rfl rfl hd.total
      obtain ⟨d', ws, hdec, hsrc', hd', hp', hws, hg⟩ :=
        encodeElems_sim hS happ ih d.heap.length vs _ e' B₂ h hB₂ hfit _ rest [] hd₁ rfl (by simp)
      refine ⟨.obj d.heap.length, d', ?_, hsrc', hd', ⟨d.heap.length, ?_, rfl⟩, ?_⟩
      · rw [decodeValue_header (by rw [hsrc, List.append_assoc, hpop]), decodeBody_vector_imm]
        rw [List.length_nil] at hdec
        rw [hdec]
        rfl
      · exact ObjRel.mono hg.edict hg.ddict (aligned_concat hd.length_eq _ _)
      · exact Grows.of_record hd hg rfl rfl rfl rfl ⟨_, _, hvs, hp', hws⟩
    · -- no elements: the header alone, and an empty vector
      rw [if_neg hc, Option.some_inj] at h
      subst h
      have hzero : vs = [] := List.eq_nil_of_length_eq_zero (Nat.eq_zero_of_not_pos hc)
      subst hzero
      have hb := List.append_cancel_left hB
      subst hb
      have hd₁ : Sim S
          { e with dest := e.dest ++ hb, dict := e.dict ++ [.obj o] }
          { d with
            src := rest, heap := d.heap ++ [.vector []], dict := d.dict ++ [.obj d.heap.length] } :=
        hd.record_obj ho hnew rfl (Or.inl rfl) (Or.inr (by simp [objCount, hvs])) rfl rfl hd.total
      refine ⟨.obj d.heap.length, { d with
          src := rest, heap := d.heap ++ [.vector []], dict := d.dict ++ [.obj d.heap.length] },
        ?_, rfl, hd₁, ⟨d.heap.length, aligned_concat hd.length_eq _ _, rfl⟩,
        Grows.of_record hd (Grows.of_eq rfl rfl rfl rfl) rfl rfl rfl rfl
          ⟨.vector [], .vector [], hvs, by simp, by simp [NodeRel]⟩⟩
      rw [decodeValue_header (by rw [hsrc, hpop]), decodeBody_vector_imm]
      rfl
  · -- met before: a reference and no elements
    have hzero : (if o ∈ e.visited then 0 else vs.length) = 0 :=
      count_eq_zero_of_mem hd hfind fun _ => by simp [objCount, hvs]
    rw [hzero] at h₁ h
    rw [if_neg (Nat.lt_irrefl 0), Option.some_inj] at h
    subst h
    obtain ⟨he₁, src₁, q, hpop, hind, hal⟩ :=
      encodeObjHeader_ref hS hd (by decide) (by decide) hfind h₁ hB hsrc
    rw [he₁]
    refine ⟨.obj q, { d with src := rest }, ?_, rfl, hd.congr rfl rfl rfl rfl hd.total,
      ⟨q, hal, rfl⟩, Grows.of_eq rfl rfl rfl rfl⟩
    rw [decodeValue_header hpop, decodeBody_vector_ref, hind]
    rfl

end Objects

/-! ## Values -/

section Values
variable {S : List Node}

/-- Any value `encode_value_internal` writes, `decode_value` reads back at the same fuel. -/
theorem encodeValue_sim (hS : WF S) (fuel : ℕ) :
    ValueSim S (encodeValue S fuel) (decodeValue false fuel) := by
  induction fuel with
  | zero => intro e v e' B h; simp [encodeValue] at h
  | succ fuel ih =>
    intro e v e' B h hv hB d rest hd hsrc
    by_cases hobj : ∃ o, v = .obj o
    · obtain ⟨o, rfl⟩ := hobj
      rw [encodeValue] at h
      split at h
      · exact encodeTupleInternal_sim hS ih ‹_› h hB hd hsrc
      · exact encodeVectorInternal_sim hS ih ‹_› h hB hd hsrc
      · exact absurd h (by simp)
    · have hobj' : ∀ o, v ≠ .obj o := fun o ho => hobj ⟨o, ho⟩
      obtain ⟨B', rfl, hdec⟩ := encodeLeaf_step hv hobj' h
      have hB' := List.append_cancel_left hB
      subst hB'
      refine ⟨v.decoded, { d with src := rest }, hdec d rest hsrc, rfl,
        hd.congr rfl rfl rfl rfl hd.total, ?_, Grows.of_eq rfl rfl rfl rfl⟩
      cases v with
      | obj o => exact absurd rfl (hobj' o)
      | _ => rfl

end Values

end Nanos.TupleCodec
