import Nanos.TupleEncoding
import Nanos.IndexDict
import Mathlib.Algebra.Group.Int.Defs

set_option autoImplicit false

/-!
# `runtime/tuple.c`: encoding and decoding values

`encode_tuple` writes a value as a header and a body. A tuple or vector is written in full the
first time and gets the next index of the encoder's dictionary; later meetings are references
with no entries, and symbols are written once by name and then by index. `decode_value` records
what it builds at the same indices, so shared and cyclic values come back shared and cyclic.

Both sides keep their objects in stores indexed by number; a symbol is the bytes of its name. The
recursion runs on fuel, and `none` is a failed assertion, a `halt`, or fuel run out.
-/

namespace Nanos.TupleCodec

open TupleEncoding

/-- `type_buffer`, `type_tuple`, `type_vector`, `type_integer`, `type_string`. -/
def typeBuffer : ℕ := 0
def typeTuple : ℕ := 1
def typeVector : ℕ := 2
def typeInteger : ℕ := 3
def typeString : ℕ := 4

/-- `immediate` and `reference`, the first bit of a header. -/
def immediate : ℕ := 1
def reference : ℕ := 0

/-- A value: `0`, a table tuple or tagged vector by its object number, an integer, a string, an
    untyped buffer, `null_value` (the untyped buffer holding one zero byte), or a symbol. -/
inductive Val where
  | none
  | obj (o : ℕ)
  | integer (z : ℤ)
  | string (s : List ℕ)
  | buffer (b : List ℕ)
  | null
  | symbol (s : List ℕ)
  deriving DecidableEq, Repr

/-- An object: a table tuple, its entries in the order `iterate` visits them, or a vector. -/
inductive Node where
  | tuple (entries : List (List ℕ × Val))
  | vector (elems : List Val)
  deriving DecidableEq, Repr

/-- What a dictionary records: a symbol, or a tuple or vector. -/
inductive Key where
  | sym (s : List ℕ)
  | obj (o : ℕ)
  deriving DecidableEq, Repr

/-- `table_find(dictionary, x)` on the encoder's dictionary, which maps what it records to the
    index `count + 1` it had when recorded; `0` when absent. -/
def find (dict : List Key) (k : Key) : ℕ := IndexDict.indexOf dict k

/-- `table_find(dictionary, pointer_from_u64(i))` on the decoder's dictionary. -/
def dictFind (dict : List Key) (i : ℕ) : Option Key := IndexDict.keyAt dict i

def Key.val : Key → Val
  | .sym s => .symbol s
  | .obj o => .obj o

def noEncodeName : List ℕ := "no_encode".toList.map Char.toNat

section Encode
variable (S : List Node)

/-- `no_encode(v)`: `v` is a tuple with a `no_encode` attribute. -/
def noEncode : Val → Bool
  | .obj o =>
    match S[o]? with
    | some (.tuple es) =>
      match es.lookup noEncodeName with
      | some v => v != .none
      | none => false
    | _ => false
  | _ => false

/-- The encoder's state: the buffer written, the dictionary with its keys in the order recorded,
    the visited table, and the count `total` points to, if it points. -/
structure Encoder where
  dest : List ℕ
  dict : List Key
  visited : List ℕ
  total : Option ℕ
  deriving DecidableEq, Repr

/-- `if (total) (*total)++`. -/
def bump : Option ℕ → Option ℕ
  | some n => some (n + 1)
  | none => none

/-- `push_header` then the bytes of the body with `push_buffer`. -/
def pushBody (e : Encoder) (imm type : ℕ) (body : List ℕ) : Option Encoder :=
  (pushHeader e.dest imm type body.length).map fun dest => { e with dest := dest ++ body }

def encodeSymbol (e : Encoder) (s : List ℕ) : Option Encoder :=
  let ind := find e.dict (.sym s)
  if ind ≠ 0 then (pushHeader e.dest reference typeBuffer ind).map fun dest => { e with dest }
  else (pushBody e immediate typeBuffer s).map fun e => { e with dict := e.dict ++ [.sym s] }

/-- `encode_integer`: the sign in the length of the header, the absolute value as a varint. -/
def encodeInteger (e : Encoder) (z : ℤ) : Option Encoder :=
  (pushHeader e.dest immediate typeInteger (if z < 0 then 1 else 0)).map fun dest =>
    { e with dest := pushVarint dest z.natAbs }

/-- The header of a tuple or vector in `encode_tuple_internal` and `encode_vector_internal`:
    a reference to its index if the dictionary has one, else immediate, and recorded. -/
def encodeObjHeader (e : Encoder) (type o count : ℕ) : Option Encoder :=
  let d := find e.dict (.obj o)
  if d ≠ 0 then
    (pushHeader e.dest reference type count).map fun dest => { e with dest := pushVarint dest d }
  else
    (pushHeader e.dest immediate type count).map fun dest =>
      { e with dest, dict := e.dict ++ [.obj o] }

/-- The loop of `encode_tuple_each` over the entries: the name, then the value. -/
def encodeEntries (enc : Encoder → Val → Option Encoder) :
    Encoder → List (List ℕ × Val) → Option Encoder
  | e, [] => some e
  | e, (s, v) :: rest =>
    if noEncode S v then encodeEntries enc e rest
    else do
      let e ← encodeSymbol e s
      let e ← enc e v
      encodeEntries enc { e with total := bump e.total } rest

/-- The loop of `encode_vector_each` over the elements; a `no_encode` element is written as `0`
    to keep the order. -/
def encodeElems (enc : Encoder → Val → Option Encoder) : Encoder → List Val → Option Encoder
  | e, [] => some e
  | e, v :: rest => do
    let e ← enc e (if noEncode S v then .none else v)
    encodeElems enc { e with total := bump e.total } rest

/-- The entries `encode_value_count_each` counts. -/
def encodedCount (es : List (List ℕ × Val)) : ℕ :=
  (es.filter fun x => !noEncode S x.2).length

/-- `encode_tuple_internal`: the count is 0 for a tuple already visited, and the entries are
    written only when it is not. -/
def encodeTupleInternal (enc : Encoder → Val → Option Encoder) (e : Encoder) (o : ℕ)
    (es : List (List ℕ × Val)) : Option Encoder := do
  let count := if o ∈ e.visited then 0 else encodedCount S es
  let e ← encodeObjHeader e typeTuple o count
  if count > 0 then encodeEntries S enc { e with visited := e.visited ++ [o] } es else some e

def encodeVectorInternal (enc : Encoder → Val → Option Encoder) (e : Encoder) (o : ℕ)
    (vs : List Val) : Option Encoder := do
  let count := if o ∈ e.visited then 0 else vs.length
  let e ← encodeObjHeader e typeVector o count
  if count > 0 then encodeElems S enc { e with visited := e.visited ++ [o] } vs else some e

def encodeValue : ℕ → Encoder → Val → Option Encoder
  | 0, _, _ => none
  | fuel + 1, e, v =>
    match v with
    | .none => (pushHeader e.dest immediate typeBuffer 0).map fun dest => { e with dest }
    | .obj o =>
      match S[o]? with
      | some (.tuple es) => encodeTupleInternal S (encodeValue fuel) e o es
      | some (.vector vs) => encodeVectorInternal S (encodeValue fuel) e o vs
      | none => none
    | .integer z => encodeInteger e z
    | .string s => pushBody e immediate typeString s
    | .buffer b => pushBody e immediate typeBuffer b
    | .null => pushBody e immediate typeBuffer [0]
    | .symbol _ => none

/-- `encode_tuple(dest, dictionary, t, total)`: a fresh visited table. -/
def encodeTuple (fuel : ℕ) (dest : List ℕ) (dict : List Key) (t : ℕ) (total : Option ℕ) :
    Option Encoder :=
  encodeValue S fuel ⟨dest, dict, [], total⟩ (.obj t)

end Encode

/-! ## Decoding -/

/-- The decoder's state: the bytes left, the dictionary, the objects it has built, and the
    counts `total` and `obsolete` point to, if they point. -/
structure Decoder where
  src : List ℕ
  dict : List Key
  heap : List Node
  total : Option ℕ
  obsolete : Option ℕ
  deriving DecidableEq, Repr

/-- An attribute `set_new_value` sets: a symbol of a tuple, or `integer_key(i)` of a vector. -/
inductive Attr where
  | sym (s : List ℕ)
  | index (i : ℕ)
  deriving DecidableEq, Repr

/-- `table_set` on a tuple's table: `0` removes the entry, another value replaces it or adds it. -/
def tupleSet (es : List (List ℕ × Val)) (s : List ℕ) (v : Val) : List (List ℕ × Val) :=
  if v = .none then es.filter fun x => x.1 != s
  else if es.any fun x => x.1 == s then es.map fun x => if x.1 = s then (s, v) else x
  else es ++ [(s, v)]

/-- `vector_set`: `extend_total` fills the slots up to the offset with `0`. -/
def vectorSet (vs : List Val) (i : ℕ) (v : Val) : List Val :=
  (vs ++ List.replicate (i + 1 - vs.length) Val.none).set i v

def getAttr : Node → Attr → Val
  | .tuple es, .sym s => (es.lookup s).getD .none
  | .vector vs, .index i => vs.getD i .none
  | _, _ => .none

/-- `set(e, a, v)`; a tuple set by index or a vector by symbol is not modelled. -/
def setAttr : Node → Attr → Val → Option Node
  | .tuple es, .sym s, v => some (.tuple (tupleSet es s v))
  | .vector vs, .index i, v => some (.vector (vectorSet vs i v))
  | _, _, _ => none

/-- The count of obsolete entries in `set_new_value` and `encode_eav`: one for a value that
    replaces another, two for a `0` that removes one. -/
def countObsolete (obsolete : Option ℕ) (old new : Val) : Option ℕ :=
  match obsolete with
  | some n => some (if old ≠ .none then (if new = .none then n + 2 else n + 1) else n)
  | none => none

/-- `set_new_value(e, a, ...)` after the value `nv` is decoded: the obsolete count, then `set`,
    then the total. -/
def setNewValue (target : Val) (a : Attr) (nv : Val) (d : Decoder) : Option Decoder :=
  match target with
  | .obj t => do
    let node ← d.heap[t]?
    let node' ← setAttr node a nv
    some { d with heap := d.heap.set t node', obsolete := countObsolete d.obsolete (getAttr node a) nv,
                  total := bump d.total }
  | _ => none

/-- `pop_indirect_value`: a varint index, which the dictionary must hold. -/
def popIndirect (d : Decoder) : Option (Val × Decoder) := do
  let (e, src) ← popVarint d.src
  let k ← dictFind d.dict e
  some (k.val, { d with src })

/-- A new tuple or vector, recorded with `drecord`. -/
def allocate (d : Decoder) (n : Node) : Val × Decoder :=
  (.obj d.heap.length, { d with heap := d.heap ++ [n], dict := d.dict ++ [.obj d.heap.length] })

/-- `-(s64)n` for a `u64` `n`, as `value_from_s64` receives it. -/
def negS64 (n : ℕ) : ℤ := if n ≤ 2 ^ 63 then -(n : ℤ) else 2 ^ 64 - (n : ℤ)

/-- The bytes of an immediate body, `len` of them. -/
def takeBody (src : List ℕ) (len : ℕ) : Option (List ℕ × List ℕ) :=
  if len ≤ src.length then some (src.take len, src.drop len) else none

section Decode
variable (oldEncoding : Bool)

/-- The name of an entry as the loop of `decode_value` over a tuple reads it: immediate, then
    interned and recorded, or an index the dictionary must hold a symbol at. -/
def popName (d : Decoder) : Option (List ℕ × Decoder) := do
  let ((imm, _, nlen), src) ← popHeader oldEncoding d.src
  if imm ≠ 0 then do
    let (name, src) ← takeBody src nlen
    some (name, { d with src, dict := d.dict ++ [.sym name] })
  else
    match dictFind d.dict nlen with
    | some (.sym s) => some (s, { d with src })
    | _ => none

/-- The loop of `decode_value` over the entries of a tuple: a name, then `set_new_value`. -/
def decodeEntries (dec : Decoder → Option (Val × Decoder)) (t : Val) :
    ℕ → Decoder → Option Decoder
  | 0, d => some d
  | n + 1, d => do
    let (s, d) ← popName oldEncoding d
    let (nv, d) ← dec d
    let d ← setNewValue t (.sym s) nv d
    decodeEntries dec t n d

/-- The loop of `decode_value` over the elements of a vector, from index `i`. -/
def decodeElems (dec : Decoder → Option (Val × Decoder)) (v : Val) :
    ℕ → ℕ → Decoder → Option Decoder
  | 0, _, d => some d
  | n + 1, i, d => do
    let (nv, d) ← dec d
    let d ← setNewValue v (.index i) nv d
    decodeElems dec v n (i + 1) d

/-- `decode_value` once `pop_header` has read `imm`, `type` and `len`. -/
def decodeBody (dec : Decoder → Option (Val × Decoder)) (imm type len : ℕ) (d : Decoder) :
    Option (Val × Decoder) :=
  if type = typeTuple then do
    let (t, d) ← if imm = immediate then some (allocate d (.tuple [])) else popIndirect d
    let d ← decodeEntries oldEncoding dec t len d
    some (t, d)
  else if type = typeVector then do
    let (v, d) ← if imm = immediate then some (allocate d (.vector [])) else popIndirect d
    let d ← decodeElems dec v len 0 d
    some (v, d)
  else if type = typeInteger then
    if imm ≠ immediate then none
    else do
      let (n, src) ← popVarint d.src
      some (.integer (if len > 0 then negS64 n else n), { d with src })
  else if len = 0 then some (.none, d)
  else if imm = immediate then
    if type = typeString then do
      let (s, src) ← takeBody d.src len
      some (.string s, { d with src })
    else if len = 1 ∧ d.src.head? = some 0 then some (.null, { d with src := d.src.drop 1 })
    else do
      let (b, src) ← takeBody d.src len
      some (.buffer b, { d with src })
  else do
    let k ← dictFind d.dict len
    some (k.val, d)

def decodeValue : ℕ → Decoder → Option (Val × Decoder)
  | 0, _ => none
  | fuel + 1, d => do
    let ((imm, type, len), src) ← popHeader oldEncoding d.src
    decodeBody oldEncoding (decodeValue fuel) imm type len { d with src }

end Decode

/-- `encode_eav(dest, dictionary, e, a, v, obsolete)`: a tuple header for `e` with one entry,
    the attribute and the value, with `e` alone visited and no total; then the obsolete count
    from the value `e` holds at `a`. -/
def encodeEav (S : List Node) (fuel : ℕ) (dest : List ℕ) (dict : List Key) (t : ℕ)
    (a : List ℕ) (v : Val) (obsolete : Option ℕ) : Option (Encoder × Option ℕ) := do
  let e ← encodeObjHeader ⟨dest, dict, [], none⟩ typeTuple t 1
  let e ← encodeSymbol { e with visited := [t] } a
  let e ← encodeValue S fuel e v
  let node ← S[t]?
  some (e, countObsolete obsolete (getAttr node (.sym a)) v)

end Nanos.TupleCodec
