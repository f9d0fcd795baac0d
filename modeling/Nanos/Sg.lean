import Nanos.Memory
import Mathlib.Algebra.BigOperators.Group.List.Basic
import Mathlib.Algebra.Order.Group.Nat
import Mathlib.Algebra.Ring.Int.Defs
import Mathlib.Algebra.GroupWithZero.Nat

set_option autoImplicit false

/-!
# `runtime/sg.c`: scatter-gather lists

An `sg_list` is an array of fragments, each `buf[offset, size)` of memory, and `count`, the sum of
their sizes; its byte sequence is the data of the fragments in order (`contents`). `sg_copy`,
`sg_zero_fill` and `sg_move` share one loop (`sgLoop`) whose work is a parameter, a fold over the
pieces it visits (`sgLoop_state`).

The operations act on the first bytes of the sequence (`sgCopyToBuf_spec`, `sgCopyFromBuf_spec`,
`sgZeroFill_mem`, `sgConsume_eq`, `sgMove_dest`), with two exceptions: `sg_move` appends pieces
whose size counts the source's offset (`sgMove_valid_iff`), and `sg_copy_to_buf_and_release`
copies from the start of each fragment, not from its offset (`sgCopyToBufAndRelease_eq`).
-/

namespace Nanos.Sg
open Memory

/-- `struct sg_buf`: a fragment of memory from address `buf`, its data from `buf + offset` to
    `buf + size`; a `refcount` of `0` is a null reference. -/
structure SgBuf where
  buf : ℕ
  size : ℕ
  offset : ℕ
  refcount : ℕ
  deriving DecidableEq, Repr

structure SgList where
  b : List SgBuf
  count : ℤ
  deriving DecidableEq, Repr

def sgBufLen (sgb : SgBuf) : ℕ := sgb.size - sgb.offset

/-- `sg_buf_release`: the reference it releases, none for a null one. -/
def sgBufRelease (sgb : SgBuf) : List ℕ := if sgb.refcount = 0 then [] else [sgb.refcount]

/-- `sg_list_tail_add`, with the fragment the caller fills in. -/
def sgListTailAdd (sg : SgList) (length : ℕ) (sgb : SgBuf) : SgList :=
  ⟨sg.b ++ [sgb], sg.count + length⟩

def sgTotalLen (sg : SgList) : ℤ :=
  match sg.b with
  | [] => sg.count
  | sgb :: _ => sg.count - sgb.offset

/-- `sg_consume`, over the fragments from the head. -/
def sgConsumeLoop : ℕ → List SgBuf → ℤ → SgList × List ℕ
  | _, [], count => (⟨[], count⟩, [])
  | length, sgb :: rest, count =>
    if sgb.size ≤ length + sgb.offset then
      -- `sg_list_head_remove` takes the head's size off the count
      if length - sgBufLen sgb = 0 then (⟨rest, count - sgb.size⟩, sgBufRelease sgb)
      else
        let r := sgConsumeLoop (length - sgBufLen sgb) rest (count - sgb.size)
        (r.1, sgBufRelease sgb ++ r.2)
    else (⟨{ sgb with offset := sgb.offset + length } :: rest, count⟩, [])

/-- `sg_consume`: the list after it and the references released. -/
def sgConsume (sg : SgList) (length : ℕ) : SgList × List ℕ := sgConsumeLoop length sg.b sg.count

/-- What the loop of `sg_copy`, `sg_zero_fill` and `sg_move` leaves: the state of its work, the
    bytes not done, the list, and the references released. -/
structure Out (σ : Type) where
  state : σ
  remain : ℕ
  sg : SgList
  released : List ℕ

section Loop
variable {σ : Type} (act : σ → SgBuf → ℕ → σ)

/-- The loop of `sg_copy`, `sg_zero_fill` and `sg_move`: `act` does the work on the next `len`
    bytes of the head. -/
def sgLoop : σ → ℕ → List SgBuf → ℤ → Out σ
  | s, remain, [], count => ⟨s, remain, ⟨[], count⟩, []⟩
  | s, remain, sgb :: rest, count =>
    if remain = 0 then ⟨s, remain, ⟨sgb :: rest, count⟩, []⟩
    else
      let len := min remain (sgBufLen sgb)
      if sgb.offset + len < sgb.size then
        ⟨act s sgb len, remain - len, ⟨{ sgb with offset := sgb.offset + len } :: rest, count⟩, []⟩
      else
        let r := sgLoop (act s sgb len) (remain - len) rest (count - sgb.size)
        ⟨r.state, r.remain, r.sg, sgBufRelease sgb ++ r.released⟩

end Loop

/-- The work of `sg_copy` on `len` bytes of a fragment: copy them to the buffer at `pos`, or
    from it, and move `pos` past them. The state is the memory, the buffer and `pos`. -/
def copyStep (toBuf : Bool) (s : (ℕ → UInt8) × (ℕ → UInt8) × ℕ) (sgb : SgBuf) (len : ℕ) :
    (ℕ → UInt8) × (ℕ → UInt8) × ℕ :=
  if toBuf then (s.1, write s.2.1 s.2.2 (read s.1 (sgb.buf + sgb.offset) len), s.2.2 + len)
  else (write s.1 (sgb.buf + sgb.offset) (read s.2.1 s.2.2 len), s.2.1, s.2.2 + len)

/-- `sg_copy`: the bytes copied, and what the loop leaves. -/
def sgCopy (mem buf : ℕ → UInt8) (sg : SgList) (n : ℕ) (toBuf : Bool) :
    ℕ × Out ((ℕ → UInt8) × (ℕ → UInt8) × ℕ) :=
  let r := sgLoop (copyStep toBuf) (mem, buf, 0) n sg.b sg.count
  (n - r.remain, r)

def sgCopyToBuf (mem target : ℕ → UInt8) (sg : SgList) (length : ℕ) :
    ℕ × Out ((ℕ → UInt8) × (ℕ → UInt8) × ℕ) := sgCopy mem target sg length true

def sgCopyFromBuf (mem src : ℕ → UInt8) (sg : SgList) (length : ℕ) :
    ℕ × Out ((ℕ → UInt8) × (ℕ → UInt8) × ℕ) := sgCopy mem src sg length false

def zeroStep (mem : ℕ → UInt8) (sgb : SgBuf) (len : ℕ) : ℕ → UInt8 :=
  write mem (sgb.buf + sgb.offset) (List.replicate len 0)

/-- `sg_zero_fill`: the bytes zeroed, and what the loop leaves. -/
def sgZeroFill (mem : ℕ → UInt8) (sg : SgList) (n : ℕ) : ℕ × Out (ℕ → UInt8) :=
  let r := sgLoop zeroStep mem n sg.b sg.count
  (n - r.remain, r)

/-- The work of `sg_move` on `len` bytes of a source fragment: append to the destination a piece
    of the same memory, of size `offset + len` from the same offset, and reserve its reference.
    The state is the destination and the references reserved. -/
def moveStep (s : SgList × List ℕ) (ssgb : SgBuf) (len : ℕ) : SgList × List ℕ :=
  (sgListTailAdd s.1 len ⟨ssgb.buf, ssgb.offset + len, ssgb.offset, ssgb.refcount⟩,
    s.2 ++ [ssgb.refcount])

/-- `sg_move`: the bytes moved, and what the loop leaves. -/
def sgMove (dest src : SgList) (n : ℕ) : ℕ × Out (SgList × List ℕ) :=
  let r := sgLoop moveStep (dest, []) n src.b src.count
  (n - r.remain, r)

/-- The loop of `sg_copy_to_buf_and_release` over the fragments it removes: the target, the bytes
    not copied, and the references released. -/
def copyReleaseLoop (mem : ℕ → UInt8) :
    (ℕ → UInt8) → ℕ → ℕ → List SgBuf → (ℕ → UInt8) × ℕ × List ℕ
  | target, _, remain, [] => (target, remain, [])
  | target, pos, remain, sgb :: rest =>
    let len := min remain (sgBufLen sgb)
    -- the copy reads from `sgb->buf`, the fragment's start
    let r := if 0 < len then copyReleaseLoop mem (write target pos (read mem sgb.buf len)) (pos + len)
        (remain - len) rest
      else copyReleaseLoop mem target pos remain rest
    (r.1, r.2.1, sgBufRelease sgb ++ r.2.2)

/-- `sg_copy_to_buf_and_release`: the bytes copied, the target, the list after
    `deallocate_sg_list`, and the references released. -/
def sgCopyToBufAndRelease (mem target : ℕ → UInt8) (sg : SgList) (n : ℕ) :
    ℕ × (ℕ → UInt8) × SgList × List ℕ :=
  let r := copyReleaseLoop mem target 0 n sg.b
  (n - r.2.1, r.1, ⟨[], 0⟩, r.2.2)

/-! ## The byte sequence of a list -/

def dataAddrs (sgb : SgBuf) : List ℕ := List.range' (sgb.buf + sgb.offset) (sgBufLen sgb)

def addrs (bufs : List SgBuf) : List ℕ := bufs.flatMap dataAddrs

/-- The byte sequence of a list: the data `buf[offset, size)` of each fragment in order. -/
def contents (mem : ℕ → UInt8) (bufs : List SgBuf) : List UInt8 :=
  bufs.flatMap fun sgb => read mem (sgb.buf + sgb.offset) (sgBufLen sgb)

def sizes (bufs : List SgBuf) : ℤ := (bufs.map fun sgb => (sgb.size : ℤ)).sum

/-- The invariant of a list: no fragment is empty, and `count` is the sum of their sizes. -/
structure Valid (sg : SgList) : Prop where
  nonempty : ∀ sgb ∈ sg.b, sgb.offset < sgb.size
  count : sg.count = sizes sg.b

instance (sg : SgList) : Decidable (Valid sg) :=
  decidable_of_iff ((∀ sgb ∈ sg.b, sgb.offset < sgb.size) ∧ sg.count = sizes sg.b)
    ⟨fun h => ⟨h.1, h.2⟩, fun h => ⟨h.1, h.2⟩⟩

/-- Only the head of the list is partly used. -/
def Tight (bufs : List SgBuf) : Prop := ∀ sgb ∈ bufs.tail, sgb.offset = 0

instance (bufs : List SgBuf) : Decidable (Tight bufs) :=
  inferInstanceAs (Decidable (∀ sgb ∈ bufs.tail, sgb.offset = 0))

/-- The pieces the loop of `sg_copy`, `sg_zero_fill` and `sg_move` works on: each fragment it
    reaches and the bytes it takes from it. -/
def pieces : ℕ → List SgBuf → List (SgBuf × ℕ)
  | _, [] => []
  | remain, sgb :: rest =>
    if remain = 0 then []
    else
      let len := min remain (sgBufLen sgb)
      if sgb.offset + len < sgb.size then [(sgb, len)] else (sgb, len) :: pieces (remain - len) rest

def pieceAddrs (p : SgBuf × ℕ) : List ℕ := List.range' (p.1.buf + p.1.offset) p.2

/-- The piece `sg_move` appends for `p.2` bytes of the source fragment `p.1`. -/
def movedPiece (p : SgBuf × ℕ) : SgBuf := ⟨p.1.buf, p.1.offset + p.2, p.1.offset, p.1.refcount⟩

def advance (d : ℕ) : List SgBuf → List SgBuf
  | [] => []
  | sgb :: rest => { sgb with offset := sgb.offset + d } :: rest

@[simp] theorem addrs_nil : addrs [] = [] := rfl

theorem addrs_cons (sgb : SgBuf) (rest : List SgBuf) : addrs (sgb :: rest) = dataAddrs sgb ++ addrs rest :=
  rfl

@[simp] theorem length_dataAddrs (sgb : SgBuf) : (dataAddrs sgb).length = sgBufLen sgb := by
  simp [dataAddrs]

theorem length_addrs_cons (sgb : SgBuf) (rest : List SgBuf) :
    (addrs (sgb :: rest)).length = sgBufLen sgb + (addrs rest).length := by
  simp [addrs_cons]

theorem contents_eq (mem : ℕ → UInt8) (bufs : List SgBuf) : contents mem bufs = (addrs bufs).map mem := by
  simp [contents, addrs, dataAddrs, Memory.read, List.map_flatMap]

@[simp] theorem sizes_nil : sizes [] = 0 := rfl

theorem sizes_cons (sgb : SgBuf) (rest : List SgBuf) : sizes (sgb :: rest) = sgb.size + sizes rest := by
  simp [sizes]

theorem sizes_advance (d : ℕ) (bufs : List SgBuf) : sizes (advance d bufs) = sizes bufs := by
  cases bufs <;> simp [advance, sizes_cons]

theorem sizes_append (A B : List SgBuf) : sizes (A ++ B) = sizes A + sizes B := by
  simp [sizes]

theorem contents_append (mem : ℕ → UInt8) (A B : List SgBuf) :
    contents mem (A ++ B) = contents mem A ++ contents mem B := by
  simp [contents]

theorem sizes_take_add_drop (bufs : List SgBuf) (j : ℕ) :
    sizes (bufs.take j) + sizes (bufs.drop j) = sizes bufs := by
  simp [sizes, ← List.sum_append]

theorem dataAddrs_advance (sgb : SgBuf) (len : ℕ) :
    dataAddrs { sgb with offset := sgb.offset + len } = (dataAddrs sgb).drop len := by
  simp only [dataAddrs, sgBufLen, List.drop_range']
  congr 1 <;> omega

/-! ## The loop -/

section LoopSpec
variable {σ : Type} (act : σ → SgBuf → ℕ → σ) (s : σ) (sgb : SgBuf) (rest : List SgBuf) (count : ℤ)

/-! The three things one turn of the loop can do: stop with no bytes left, stop in a head that
    has more bytes than remain, or use the head up and go on. -/

theorem sgLoop_cons_zero : sgLoop act s 0 (sgb :: rest) count = ⟨s, 0, ⟨sgb :: rest, count⟩, []⟩ := by
  simp [sgLoop]

theorem sgLoop_cons_keep {n : ℕ} (h0 : 0 < n) (hn : n < sgBufLen sgb) :
    sgLoop act s n (sgb :: rest) count =
      ⟨act s sgb n, 0, ⟨{ sgb with offset := sgb.offset + n } :: rest, count⟩, []⟩ := by
  have hk : sgb.offset + n < sgb.size := by unfold sgBufLen at hn; omega
  have hm : min n (sgBufLen sgb) = n := by omega
  simp only [sgLoop, Nat.pos_iff_ne_zero.mp h0, if_false, hm, hk, if_true, Nat.sub_self]

theorem sgLoop_cons_remove {n : ℕ} (h0 : 0 < n) (hn : sgBufLen sgb ≤ n) :
    sgLoop act s n (sgb :: rest) count =
      let r := sgLoop act (act s sgb (sgBufLen sgb)) (n - sgBufLen sgb) rest (count - sgb.size)
      ⟨r.state, r.remain, r.sg, sgBufRelease sgb ++ r.released⟩ := by
  have hk : ¬ sgb.offset + sgBufLen sgb < sgb.size := by unfold sgBufLen; omega
  have hm : min n (sgBufLen sgb) = sgBufLen sgb := by omega
  simp only [sgLoop, Nat.pos_iff_ne_zero.mp h0, if_false, hm, hk]

end LoopSpec

theorem pieces_cons_zero (sgb : SgBuf) (rest : List SgBuf) : pieces 0 (sgb :: rest) = [] := by
  simp [pieces]

theorem pieces_cons_keep (sgb : SgBuf) (rest : List SgBuf) {n : ℕ} (h0 : 0 < n) (hn : n < sgBufLen sgb) :
    pieces n (sgb :: rest) = [(sgb, n)] := by
  have hk : sgb.offset + n < sgb.size := by unfold sgBufLen at hn; omega
  have hm : min n (sgBufLen sgb) = n := by omega
  simp only [pieces, Nat.pos_iff_ne_zero.mp h0, if_false, hm, hk, if_true]

theorem pieces_cons_remove (sgb : SgBuf) (rest : List SgBuf) {n : ℕ} (h0 : 0 < n) (hn : sgBufLen sgb ≤ n) :
    pieces n (sgb :: rest) = (sgb, sgBufLen sgb) :: pieces (n - sgBufLen sgb) rest := by
  have hk : ¬ sgb.offset + sgBufLen sgb < sgb.size := by unfold sgBufLen; omega
  have hm : min n (sgBufLen sgb) = sgBufLen sgb := by omega
  simp only [pieces, Nat.pos_iff_ne_zero.mp h0, if_false, hm, hk]

section LoopSpec
variable {σ : Type} (act : σ → SgBuf → ℕ → σ)

theorem sgLoop_state (s : σ) (n : ℕ) (bufs : List SgBuf) (count : ℤ) :
    (sgLoop act s n bufs count).state = (pieces n bufs).foldl (fun s p => act s p.1 p.2) s := by
  induction bufs generalizing s n count with
  | nil => rfl
  | cons sgb rest ih =>
    rcases Nat.eq_zero_or_pos n with rfl | h0
    · rw [sgLoop_cons_zero, pieces_cons_zero]
      rfl
    rcases Nat.lt_or_ge n (sgBufLen sgb) with hn | hn
    · rw [sgLoop_cons_keep act s sgb rest count h0 hn, pieces_cons_keep sgb rest h0 hn]
      rfl
    · rw [sgLoop_cons_remove act s sgb rest count h0 hn, pieces_cons_remove sgb rest h0 hn]
      exact ih _ _ _

theorem sgLoop_remain (s : σ) (n : ℕ) (bufs : List SgBuf) (count : ℤ) :
    (sgLoop act s n bufs count).remain = n - (addrs bufs).length := by
  induction bufs generalizing s n count with
  | nil => simp [sgLoop]
  | cons sgb rest ih =>
    rw [length_addrs_cons]
    rcases Nat.eq_zero_or_pos n with rfl | h0
    · rw [sgLoop_cons_zero]
      simp
    rcases Nat.lt_or_ge n (sgBufLen sgb) with hn | hn
    · rw [sgLoop_cons_keep act s sgb rest count h0 hn]
      dsimp only
      omega
    · rw [sgLoop_cons_remove act s sgb rest count h0 hn]
      dsimp only
      rw [ih]
      omega

theorem sgLoop_addrs (s : σ) (n : ℕ) (bufs : List SgBuf) (count : ℤ) :
    addrs (sgLoop act s n bufs count).sg.b = (addrs bufs).drop n := by
  induction bufs generalizing s n count with
  | nil => simp [sgLoop]
  | cons sgb rest ih =>
    have hlen := length_dataAddrs sgb
    rcases Nat.eq_zero_or_pos n with rfl | h0
    · rw [sgLoop_cons_zero]
      rfl
    rcases Nat.lt_or_ge n (sgBufLen sgb) with hn | hn
    · rw [sgLoop_cons_keep act s sgb rest count h0 hn]
      dsimp only
      rw [addrs_cons, addrs_cons, dataAddrs_advance sgb n, List.drop_append_of_le_length (by omega)]
    · rw [sgLoop_cons_remove act s sgb rest count h0 hn]
      dsimp only
      rw [ih, addrs_cons, List.drop_append, List.drop_of_length_le (by omega : (dataAddrs sgb).length ≤ n),
        List.nil_append, hlen]

/-- The loop removes the first `j` fragments, releasing the reference of each once, in order,
    and taking their sizes off the count, and moves the offset of the next one. -/
theorem sgLoop_removes (s : σ) (n : ℕ) (bufs : List SgBuf) (count : ℤ) :
    ∃ j d, (sgLoop act s n bufs count).sg.b = advance d (bufs.drop j) ∧
      (sgLoop act s n bufs count).released = (bufs.take j).flatMap sgBufRelease ∧
      (sgLoop act s n bufs count).sg.count = count - sizes (bufs.take j) := by
  induction bufs generalizing s n count with
  | nil => exact ⟨0, 0, rfl, rfl, by simp [sgLoop]⟩
  | cons sgb rest ih =>
    rcases Nat.eq_zero_or_pos n with rfl | h0
    · rw [sgLoop_cons_zero]
      exact ⟨0, 0, by simp [advance], rfl, by simp⟩
    rcases Nat.lt_or_ge n (sgBufLen sgb) with hn | hn
    · rw [sgLoop_cons_keep act s sgb rest count h0 hn]
      exact ⟨0, n, rfl, rfl, by simp⟩
    · rw [sgLoop_cons_remove act s sgb rest count h0 hn]
      dsimp only
      obtain ⟨j, d, h1, h2, h3⟩ := ih (act s sgb (sgBufLen sgb)) (n - sgBufLen sgb) (count - sgb.size)
      refine ⟨j + 1, d, h1, by rw [h2]; simp, ?_⟩
      rw [h3, List.take_succ_cons, sizes_cons]
      omega

theorem sgLoop_nonempty (s : σ) (n : ℕ) {bufs : List SgBuf} (count : ℤ)
    (h : ∀ sgb ∈ bufs, sgb.offset < sgb.size) :
    ∀ sgb ∈ (sgLoop act s n bufs count).sg.b, sgb.offset < sgb.size := by
  induction bufs generalizing s n count with
  | nil => simp [sgLoop]
  | cons sgb rest ih =>
    rcases Nat.eq_zero_or_pos n with rfl | h0
    · rw [sgLoop_cons_zero]
      exact h
    rcases Nat.lt_or_ge n (sgBufLen sgb) with hn | hn
    · rw [sgLoop_cons_keep act s sgb rest count h0 hn]
      intro f hf
      rcases List.mem_cons.mp hf with rfl | hf
      · unfold sgBufLen at hn
        dsimp only
        omega
      · exact h f (List.mem_cons_of_mem sgb hf)
    · rw [sgLoop_cons_remove act s sgb rest count h0 hn]
      exact ih _ _ _ fun f hf => h f (List.mem_cons_of_mem sgb hf)

theorem sgLoop_valid (s : σ) (n : ℕ) {bufs : List SgBuf} {count : ℤ} (h : Valid ⟨bufs, count⟩) :
    Valid (sgLoop act s n bufs count).sg := by
  obtain ⟨j, d, h1, -, h3⟩ := sgLoop_removes act s n bufs count
  refine ⟨sgLoop_nonempty act s n count h.nonempty, ?_⟩
  have hc : count = sizes bufs := h.count
  have hs := sizes_take_add_drop bufs j
  rw [h3, h1, sizes_advance]
  omega

theorem Tight.drop {bufs : List SgBuf} (h : Tight bufs) (j : ℕ) : Tight (bufs.drop j) := by
  intro f hf
  rw [List.tail_drop] at hf
  cases bufs with
  | nil => simp at hf
  | cons sgb rest => exact h f (List.mem_of_mem_drop hf)

theorem Tight.advance {bufs : List SgBuf} (h : Tight bufs) (d : ℕ) : Tight (advance d bufs) := by
  cases bufs with
  | nil => exact h
  | cons sgb rest => exact h

theorem sgLoop_tight (s : σ) (n : ℕ) {bufs : List SgBuf} (count : ℤ) (h : Tight bufs) :
    Tight (sgLoop act s n bufs count).sg.b := by
  obtain ⟨j, d, h1, -, -⟩ := sgLoop_removes act s n bufs count
  rw [h1]
  exact (h.drop j).advance d

end LoopSpec

/-- `sg_total_len` of a list with the invariant whose fragments after the head are unused is the
    length of its sequence. -/
theorem sgTotalLen_eq {sg : SgList} (h : Valid sg) (ht : Tight sg.b) :
    sgTotalLen sg = (addrs sg.b).length := by
  obtain ⟨bufs, count⟩ := sg
  have hc : count = sizes bufs := h.count
  -- the fragments after the head give their whole size
  have hrest : ∀ rest : List SgBuf, (∀ f ∈ rest, f.offset = 0) → ((addrs rest).length : ℤ) = sizes rest := by
    intro rest hr
    induction rest with
    | nil => rfl
    | cons f rest ih =>
      have h1 := ih fun g hg => hr g (List.mem_cons_of_mem f hg)
      have h2 : f.offset = 0 := hr f List.mem_cons_self
      rw [length_addrs_cons, sizes_cons]
      unfold sgBufLen
      omega
  cases bufs with
  | nil => simp [sgTotalLen, hc]
  | cons sgb rest =>
    have hne := h.nonempty sgb List.mem_cons_self
    have h1 := hrest rest ht
    rw [sgTotalLen, length_addrs_cons, hc, sizes_cons]
    unfold sgBufLen
    dsimp only at hne ⊢
    omega

theorem pieces_addrs (n : ℕ) (bufs : List SgBuf) :
    (pieces n bufs).flatMap pieceAddrs = (addrs bufs).take n := by
  induction bufs generalizing n with
  | nil => simp [pieces]
  | cons sgb rest ih =>
    have hlen := length_dataAddrs sgb
    rcases Nat.eq_zero_or_pos n with rfl | h0
    · rw [pieces_cons_zero]
      rfl
    rcases Nat.lt_or_ge n (sgBufLen sgb) with hn | hn
    · rw [pieces_cons_keep sgb rest h0 hn, addrs_cons, List.take_append_of_le_length (by omega)]
      simp only [List.flatMap_cons, List.flatMap_nil, List.append_nil, pieceAddrs, dataAddrs]
      rw [List.take_range'_of_length_ge hn.le]
    · rw [pieces_cons_remove sgb rest h0 hn, List.flatMap_cons, ih, addrs_cons, List.take_append,
        List.take_of_length_le (by omega : (dataAddrs sgb).length ≤ n), hlen]
      rfl

theorem pieces_zero (bufs : List SgBuf) : pieces 0 bufs = [] := by
  cases bufs with
  | nil => rfl
  | cons sgb rest => exact pieces_cons_zero sgb rest

theorem mem_pieces {n : ℕ} {bufs : List SgBuf} {p : SgBuf × ℕ} (hp : p ∈ pieces n bufs) : p.1 ∈ bufs := by
  induction bufs generalizing n with
  | nil => simp [pieces] at hp
  | cons sgb rest ih =>
    rcases Nat.eq_zero_or_pos n with rfl | h0
    · simp [pieces_cons_zero] at hp
    rcases Nat.lt_or_ge n (sgBufLen sgb) with hn | hn
    · rw [pieces_cons_keep sgb rest h0 hn, List.mem_singleton] at hp
      rw [hp]
      exact List.mem_cons_self
    · rw [pieces_cons_remove sgb rest h0 hn, List.mem_cons] at hp
      rcases hp with rfl | hp
      · exact List.mem_cons_self
      · exact List.mem_cons_of_mem sgb (ih hp)

theorem sum_pieces (n : ℕ) (bufs : List SgBuf) :
    ((pieces n bufs).map Prod.snd).sum = min n (addrs bufs).length := by
  have h := congrArg List.length (pieces_addrs n bufs)
  simp only [List.length_flatMap, List.length_take, pieceAddrs, List.length_range'] at h
  rw [← h]

theorem flatMap_read_pieces (mem : ℕ → UInt8) (n : ℕ) (bufs : List SgBuf) :
    (pieces n bufs).flatMap (fun p => read mem (p.1.buf + p.1.offset) p.2) = (contents mem bufs).take n := by
  rw [contents_eq, ← List.map_take, ← pieces_addrs, List.map_flatMap]
  rfl

/-! ## The operations -/

theorem foldl_copyStep_toBuf (P : List (SgBuf × ℕ)) (mem buf : ℕ → UInt8) (pos : ℕ) :
    P.foldl (fun s p => copyStep true s p.1 p.2) (mem, buf, pos) =
      (mem, write buf pos (P.flatMap fun p => read mem (p.1.buf + p.1.offset) p.2),
        pos + (P.map Prod.snd).sum) := by
  induction P generalizing buf pos with
  | nil => rfl
  | cons p P ih =>
    have hstep : copyStep true (mem, buf, pos) p.1 p.2 =
        (mem, write buf pos (read mem (p.1.buf + p.1.offset) p.2), pos + p.2) := rfl
    have hlen : (read mem (p.1.buf + p.1.offset) p.2).length = p.2 := length_read _ _ _
    rw [List.foldl_cons, hstep, ih, List.flatMap_cons, ← write_append, hlen, List.map_cons, List.sum_cons,
      Nat.add_assoc]

theorem foldl_copyStep_fromBuf (P : List (SgBuf × ℕ)) (mem buf : ℕ → UInt8) (pos : ℕ) :
    P.foldl (fun s p => copyStep false s p.1 p.2) (mem, buf, pos) =
      (store mem (P.flatMap pieceAddrs) (read buf pos (P.map Prod.snd).sum), buf,
        pos + (P.map Prod.snd).sum) := by
  induction P generalizing mem pos with
  | nil => rfl
  | cons p P ih =>
    have hlen : (read buf pos p.2).length = p.2 := length_read _ _ _
    have hstep : copyStep false (mem, buf, pos) p.1 p.2 =
        (store mem (pieceAddrs p) (read buf pos p.2), buf, pos + p.2) := by
      simp only [copyStep, write, hlen, pieceAddrs]
      rfl
    rw [List.foldl_cons, hstep, ih, List.flatMap_cons, List.map_cons, List.sum_cons, read_add,
      store_append _ (by simp [pieceAddrs]), Nat.add_assoc]

theorem foldl_zeroStep (P : List (SgBuf × ℕ)) (mem : ℕ → UInt8) :
    P.foldl (fun m p => zeroStep m p.1 p.2) mem =
      store mem (P.flatMap pieceAddrs) (List.replicate (P.map Prod.snd).sum 0) := by
  induction P generalizing mem with
  | nil => rfl
  | cons p P ih =>
    have hstep : zeroStep mem p.1 p.2 = store mem (pieceAddrs p) (List.replicate p.2 0) := by
      simp only [zeroStep, write, List.length_replicate, pieceAddrs]
    rw [List.foldl_cons, hstep, ih, List.flatMap_cons, List.map_cons, List.sum_cons, List.replicate_add,
      store_append _ (by simp [pieceAddrs])]

theorem contents_store (mem : ℕ → UInt8) {bufs : List SgBuf} (hd : (addrs bufs).Nodup) (n : ℕ)
    {V : List UInt8} (hV : V.length = min n (addrs bufs).length) :
    contents (store mem ((addrs bufs).take n) V) bufs = V ++ (contents mem bufs).drop n := by
  have hsplit := List.take_append_drop n (addrs bufs)
  have hd' : ((addrs bufs).take n ++ (addrs bufs).drop n).Nodup := by rwa [hsplit]
  have hl : ((addrs bufs).take n).length = V.length := by simp [hV]
  have hmap := map_store mem hd' hl
  rw [hsplit] at hmap
  rw [contents_eq, hmap, contents_eq, List.map_drop]

theorem contents_store_drop (mem : ℕ → UInt8) {bufs bufs' : List SgBuf} (hd : (addrs bufs).Nodup)
    {n : ℕ} (h : addrs bufs' = (addrs bufs).drop n) (V : List UInt8) :
    contents (store mem ((addrs bufs).take n) V) bufs' = (contents mem bufs).drop n := by
  rw [contents_eq, h, contents_eq, ← List.map_drop]
  apply List.map_congr_left
  intro x hx
  exact store_apply_of_not_mem mem V fun hx' => List.disjoint_take_drop hd (Nat.le_refl n) hx' hx

/-- `sg_copy_to_buf` copies the first bytes of the sequence, as many as asked for or as there are,
    to the target, and answers how many. -/
theorem sgCopyToBuf_spec (mem target : ℕ → UInt8) (sg : SgList) (length : ℕ) :
    (sgCopyToBuf mem target sg length).1 = min length (addrs sg.b).length ∧
      (sgCopyToBuf mem target sg length).2.state.1 = mem ∧
      (sgCopyToBuf mem target sg length).2.state.2.1 = write target 0 ((contents mem sg.b).take length) := by
  refine ⟨?_, ?_, ?_⟩
  · simp only [sgCopyToBuf, sgCopy, sgLoop_remain]
    omega
  · simp only [sgCopyToBuf, sgCopy, sgLoop_state, foldl_copyStep_toBuf]
  · simp only [sgCopyToBuf, sgCopy, sgLoop_state, foldl_copyStep_toBuf, flatMap_read_pieces]

/-- `sg_copy_from_buf` overwrites the first bytes of the sequence with those of the source, and
    leaves the rest alone, when the fragments do not overlap. -/
theorem sgCopyFromBuf_spec (mem src : ℕ → UInt8) (sg : SgList) (length : ℕ) (hd : (addrs sg.b).Nodup) :
    (sgCopyFromBuf mem src sg length).1 = min length (addrs sg.b).length ∧
      contents (sgCopyFromBuf mem src sg length).2.state.1 sg.b =
        read src 0 (min length (addrs sg.b).length) ++ (contents mem sg.b).drop length ∧
      contents (sgCopyFromBuf mem src sg length).2.state.1 (sgCopyFromBuf mem src sg length).2.sg.b =
        (contents mem sg.b).drop length := by
  simp only [sgCopyFromBuf, sgCopy, sgLoop_remain, sgLoop_state, foldl_copyStep_fromBuf, pieces_addrs,
    sum_pieces]
  refine ⟨by omega, contents_store mem hd length (length_read _ _ _), ?_⟩
  exact contents_store_drop mem hd (sgLoop_addrs _ _ _ _ _) _

/-- `sg_zero_fill` zeroes the first bytes of the sequence and leaves the rest alone, when the
    fragments do not overlap. -/
theorem sgZeroFill_mem (mem : ℕ → UInt8) (sg : SgList) (n : ℕ) (hd : (addrs sg.b).Nodup) :
    (sgZeroFill mem sg n).1 = min n (addrs sg.b).length ∧
      contents (sgZeroFill mem sg n).2.state sg.b =
        List.replicate (min n (addrs sg.b).length) 0 ++ (contents mem sg.b).drop n ∧
      contents (sgZeroFill mem sg n).2.state (sgZeroFill mem sg n).2.sg.b = (contents mem sg.b).drop n := by
  simp only [sgZeroFill, sgLoop_remain, sgLoop_state, foldl_zeroStep, pieces_addrs, sum_pieces]
  refine ⟨by omega, contents_store mem hd n (List.length_replicate ..), ?_⟩
  exact contents_store_drop mem hd (sgLoop_addrs _ _ _ _ _) _

theorem foldl_moveStep (P : List (SgBuf × ℕ)) (dest : SgList) (res : List ℕ) :
    P.foldl (fun s p => moveStep s p.1 p.2) (dest, res) =
      (⟨dest.b ++ P.map movedPiece, dest.count + ((P.map Prod.snd).sum : ℕ)⟩,
        res ++ P.map fun p => p.1.refcount) := by
  induction P generalizing dest res with
  | nil => simp
  | cons p P ih =>
    have hstep : moveStep (dest, res) p.1 p.2 =
        (⟨dest.b ++ [movedPiece p], dest.count + p.2⟩, res ++ [p.1.refcount]) := rfl
    rw [List.foldl_cons, hstep, ih]
    simp only [List.map_cons, List.sum_cons, List.append_assoc, List.singleton_append, Prod.mk.injEq,
      SgList.mk.injEq, true_and, and_true]
    omega

theorem addrs_map_movedPiece (P : List (SgBuf × ℕ)) : addrs (P.map movedPiece) = P.flatMap pieceAddrs := by
  simp only [addrs, List.flatMap_map]
  congr 1
  funext p
  simp [dataAddrs, movedPiece, pieceAddrs, sgBufLen]

/-- `sg_move` appends the first bytes of the source's sequence to the destination's, adds their
    number to its count, and reserves a reference for each piece. -/
theorem sgMove_dest (mem : ℕ → UInt8) (dest src : SgList) (n : ℕ) :
    (sgMove dest src n).1 = min n (addrs src.b).length ∧
      contents mem (sgMove dest src n).2.state.1.b = contents mem dest.b ++ (contents mem src.b).take n ∧
      (sgMove dest src n).2.state.1.count = dest.count + min n (addrs src.b).length ∧
      (sgMove dest src n).2.state.2 = (pieces n src.b).map fun p => p.1.refcount := by
  refine ⟨?_, ?_, ?_, ?_⟩
  · simp only [sgMove, sgLoop_remain]
    omega
  · simp only [sgMove, sgLoop_state, foldl_moveStep]
    rw [contents_append, contents_eq mem (List.map _ _), addrs_map_movedPiece, pieces_addrs, List.map_take,
      ← contents_eq]
  · simp only [sgMove, sgLoop_state, foldl_moveStep, sum_pieces]
  · simp only [sgMove, sgLoop_state, foldl_moveStep, List.nil_append]

theorem sgMove_sizes (dest src : SgList) (n : ℕ) :
    sizes (sgMove dest src n).2.state.1.b =
      sizes dest.b + min n (addrs src.b).length + ((pieces n src.b).map fun p => (p.1.offset : ℤ)).sum := by
  simp only [sgMove, sgLoop_state, foldl_moveStep, sizes_append, ← sum_pieces]
  have h : ∀ P : List (SgBuf × ℕ), sizes (P.map movedPiece) =
      ((P.map Prod.snd).sum : ℕ) + (P.map fun p => (p.1.offset : ℤ)).sum := by
    intro P
    induction P with
    | nil => simp
    | cons p P ih =>
      simp only [List.map_cons, sizes_cons, ih, List.sum_cons, movedPiece]
      omega
  rw [h]
  omega

theorem pieces_pos {n : ℕ} {bufs : List SgBuf} (hne : ∀ sgb ∈ bufs, sgb.offset < sgb.size) :
    ∀ p ∈ pieces n bufs, 0 < p.2 := by
  induction bufs generalizing n with
  | nil => simp [pieces]
  | cons sgb rest ih =>
    rcases Nat.eq_zero_or_pos n with rfl | h0
    · simp [pieces_cons_zero]
    rcases Nat.lt_or_ge n (sgBufLen sgb) with hn | hn
    · rw [pieces_cons_keep sgb rest h0 hn]
      simpa using h0
    · rw [pieces_cons_remove sgb rest h0 hn]
      intro p hp
      rcases List.mem_cons.mp hp with rfl | hp
      · have := hne sgb List.mem_cons_self
        unfold sgBufLen
        dsimp only
        omega
      · exact ih (fun f hf => hne f (List.mem_cons_of_mem sgb hf)) p hp

theorem sum_offsets_pieces {sgb : SgBuf} {rest : List SgBuf} (ht : Tight (sgb :: rest)) {n : ℕ}
    (h0 : 0 < n) : ((pieces n (sgb :: rest)).map fun p => (p.1.offset : ℤ)).sum = sgb.offset := by
  rcases Nat.lt_or_ge n (sgBufLen sgb) with hn | hn
  · rw [pieces_cons_keep sgb rest h0 hn]
    simp
  · rw [pieces_cons_remove sgb rest h0 hn, List.map_cons, List.sum_cons]
    have hz : ((pieces (n - sgBufLen sgb) rest).map fun p => (p.1.offset : ℤ)) =
        (pieces (n - sgBufLen sgb) rest).map fun _ => (0 : ℤ) := by
      apply List.map_congr_left
      intro p hp
      rw [ht p.1 (mem_pieces hp)]
      rfl
    rw [hz, List.map_const', List.sum_replicate]
    simp

/-- The destination of `sg_move` keeps the invariant of a list exactly when the source's head was
    not partly used: the count grows by the bytes moved, the sizes also by the head's offset. -/
theorem sgMove_valid_iff {dest src : SgList} (hd : Valid dest) (hs : Valid src) (ht : Tight src.b)
    {sgb : SgBuf} {rest : List SgBuf} (hsrc : src.b = sgb :: rest) {n : ℕ} (h0 : 0 < n) :
    Valid (sgMove dest src n).2.state.1 ↔ sgb.offset = 0 := by
  obtain ⟨-, -, hcount, -⟩ := sgMove_dest (fun _ => 0) dest src n
  have hsizes := sgMove_sizes dest src n
  rw [hsrc, sum_offsets_pieces (hsrc ▸ ht) h0, ← hsrc, ← hd.count] at hsizes
  constructor
  · intro hv
    have := hv.count
    omega
  · intro hoff
    refine ⟨?_, by omega⟩
    simp only [sgMove, sgLoop_state, foldl_moveStep, List.nil_append]
    intro f hf
    rcases List.mem_append.mp hf with hf | hf
    · exact hd.nonempty f hf
    · obtain ⟨p, hp, rfl⟩ := List.mem_map.mp hf
      have := pieces_pos hs.nonempty p hp
      simp only [movedPiece]
      omega

theorem sgLoop_zero {σ : Type} (act : σ → SgBuf → ℕ → σ) (s : σ) (bufs : List SgBuf) (count : ℤ) :
    sgLoop act s 0 bufs count = ⟨s, 0, ⟨bufs, count⟩, []⟩ := by
  cases bufs with
  | nil => rfl
  | cons sgb rest => exact sgLoop_cons_zero act s sgb rest count

theorem sgConsumeLoop_eq {σ : Type} (act : σ → SgBuf → ℕ → σ) (s : σ) (length : ℕ) {bufs : List SgBuf}
    (count : ℤ) (hne : ∀ sgb ∈ bufs, sgb.offset < sgb.size) :
    sgConsumeLoop length bufs count =
      ((sgLoop act s length bufs count).sg, (sgLoop act s length bufs count).released) := by
  induction bufs generalizing s length count with
  | nil => rfl
  | cons sgb rest ih =>
    have hrest : ∀ f ∈ rest, f.offset < f.size := fun f hf => hne f (List.mem_cons_of_mem sgb hf)
    have hne' := hne sgb List.mem_cons_self
    rcases Nat.lt_or_ge length (sgBufLen sgb) with hn | hn
    · -- the head has bytes left: its offset moves by the length
      have hk : ¬ sgb.size ≤ length + sgb.offset := by unfold sgBufLen at hn; omega
      rcases Nat.eq_zero_or_pos length with rfl | h0
      · simp [sgConsumeLoop, hne', sgLoop_cons_zero]
      · simp only [sgConsumeLoop, hk, if_false, sgLoop_cons_keep act s sgb rest count h0 hn]
    · -- the head is used up: it is removed and released
      have hk : sgb.size ≤ length + sgb.offset := by unfold sgBufLen at hn; omega
      have h0 : 0 < length := by unfold sgBufLen at hn; omega
      rw [sgConsumeLoop, if_pos hk, sgLoop_cons_remove act s sgb rest count h0 hn]
      dsimp only
      by_cases hz : length - sgBufLen sgb = 0
      · rw [if_pos hz, hz, sgLoop_zero]
        simp
      · rw [if_neg hz, ih _ _ _ hrest]

/-- `sg_consume` discards the first bytes of the sequence as the loop of `sg_copy` does: so it
    keeps the invariant, leaves the sequence without them, and releases each fragment it removes
    once. -/
theorem sgConsume_eq {σ : Type} (act : σ → SgBuf → ℕ → σ) (s : σ) (sg : SgList) (length : ℕ)
    (hne : ∀ sgb ∈ sg.b, sgb.offset < sgb.size) :
    sgConsume sg length =
      ((sgLoop act s length sg.b sg.count).sg, (sgLoop act s length sg.b sg.count).released) :=
  sgConsumeLoop_eq act s length sg.count hne

theorem copyReleaseLoop_eq (mem target : ℕ → UInt8) (pos remain : ℕ) {bufs : List SgBuf}
    (hne : ∀ sgb ∈ bufs, sgb.offset < sgb.size) :
    copyReleaseLoop mem target pos remain bufs =
      (write target pos ((pieces remain bufs).flatMap fun p => read mem p.1.buf p.2),
        remain - (addrs bufs).length, bufs.flatMap sgBufRelease) := by
  induction bufs generalizing target pos remain with
  | nil => rfl
  | cons sgb rest ih =>
    have hrest : ∀ f ∈ rest, f.offset < f.size := fun f hf => hne f (List.mem_cons_of_mem sgb hf)
    have hL : 0 < sgBufLen sgb := by have := hne sgb List.mem_cons_self; unfold sgBufLen; omega
    rw [copyReleaseLoop, length_addrs_cons, List.flatMap_cons]
    rcases Nat.eq_zero_or_pos remain with rfl | h0
    · -- nothing remains: nothing more is copied, every fragment is still released
      rw [if_neg (by simp), ih _ _ _ hrest, pieces_zero, pieces_zero]
      simp
    rcases Nat.lt_or_ge remain (sgBufLen sgb) with hn | hn
    · have hm : min remain (sgBufLen sgb) = remain := by omega
      rw [hm, if_pos h0, ih _ _ _ hrest, Nat.sub_self, pieces_zero, pieces_cons_keep sgb rest h0 hn]
      simp only [List.flatMap_nil, List.flatMap_cons, List.append_nil, write_nil, Prod.mk.injEq, true_and,
        and_true]
      omega
    · have hm : min remain (sgBufLen sgb) = sgBufLen sgb := by omega
      have hlen : (read mem sgb.buf (sgBufLen sgb)).length = sgBufLen sgb := length_read _ _ _
      rw [hm, if_pos hL, ih _ _ _ hrest, pieces_cons_remove sgb rest h0 hn]
      simp only [List.flatMap_cons]
      rw [← write_append, hlen]
      simp only [Prod.mk.injEq, true_and, and_true]
      omega

/-- `sg_copy_to_buf_and_release` copies to the target, from the start of each fragment and not
    from its offset, as many bytes as there are or as asked for; it answers how many, releases
    every fragment and leaves the list empty. -/
theorem sgCopyToBufAndRelease_eq (mem target : ℕ → UInt8) (sg : SgList) (n : ℕ)
    (hne : ∀ sgb ∈ sg.b, sgb.offset < sgb.size) :
    sgCopyToBufAndRelease mem target sg n =
      (min n (addrs sg.b).length, write target 0 ((pieces n sg.b).flatMap fun p => read mem p.1.buf p.2),
        ⟨[], 0⟩, sg.b.flatMap sgBufRelease) := by
  simp only [sgCopyToBufAndRelease, copyReleaseLoop_eq mem target 0 n hne, Prod.mk.injEq, and_true]
  omega

/-- On a list none of whose fragments is partly used, `sg_copy_to_buf_and_release` copies the
    first bytes of the sequence. -/
theorem sgCopyToBufAndRelease_of_unused (mem target : ℕ → UInt8) (sg : SgList) (n : ℕ)
    (hne : ∀ sgb ∈ sg.b, sgb.offset < sgb.size) (h0 : ∀ sgb ∈ sg.b, sgb.offset = 0) :
    (sgCopyToBufAndRelease mem target sg n).2.1 = write target 0 ((contents mem sg.b).take n) := by
  rw [sgCopyToBufAndRelease_eq mem target sg n hne, ← flatMap_read_pieces]
  dsimp only
  congr 1
  apply List.flatMap_congr
  intro p hp
  rw [h0 p.1 (mem_pieces hp), Nat.add_zero]

/-- A list of one fragment whose first two bytes are used, so that its sequence is the bytes at
    addresses `2`, `3`, `4`: `sg_copy_to_buf_and_release` of three bytes copies those at `0`, `1`,
    `2`; and `sg_move` of the three bytes into an empty list gives it their bytes and a count of
    three, but a fragment of size five from offset two, so that its `sg_total_len` is one and it
    has lost the invariant. -/
theorem sg_partly_used_head :
    Valid ⟨[⟨0, 5, 2, 1⟩], 5⟩ ∧ Tight [⟨0, 5, 2, 1⟩] ∧
      contents (fun a => UInt8.ofNat a) [⟨0, 5, 2, 1⟩] = [2, 3, 4] ∧
      read (sgCopyToBufAndRelease (fun a => UInt8.ofNat a) (fun _ => 0) ⟨[⟨0, 5, 2, 1⟩], 5⟩ 3).2.1 0 3 =
        [0, 1, 2] ∧
      contents (fun a => UInt8.ofNat a) (sgMove ⟨[], 0⟩ ⟨[⟨0, 5, 2, 1⟩], 5⟩ 3).2.state.1.b = [2, 3, 4] ∧
      sgTotalLen (sgMove ⟨[], 0⟩ ⟨[⟨0, 5, 2, 1⟩], 5⟩ 3).2.state.1 = 1 ∧
      ¬ Valid (sgMove ⟨[], 0⟩ ⟨[⟨0, 5, 2, 1⟩], 5⟩ 3).2.state.1 := by
  decide

end Nanos.Sg
