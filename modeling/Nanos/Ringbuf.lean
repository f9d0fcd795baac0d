import Nanos.Circular
import Nanos.Bitmap

set_option autoImplicit false

/-!
# `runtime/ringbuf.c`: ring buffers

A ringbuf is a ring of `length` bytes, a power of two, with free-running `u64` counters `start`
and `end`: the bytes buffered are the `end - start` bytes from position `start & (length - 1)`.
The model keeps the counters unbounded; on a ring that holds a queue the calls read the same
positions and lengths from the wrapped ones (`Rep.counters_u64`). `allocate` succeeding is an
argument.

The ring refines a FIFO queue of bytes together with the bytes consumed since the last write or
resize, which `ringbuf_unconsume` may give back (`Rep`): each call acts on these as the queue
does, and so does every run (`ringbuf_run_refines`).
-/

namespace Nanos.Ringbufs
open Circular

structure Ringbuf where
  (start end' : ℕ)
  length : ℕ
  contents : List UInt8
  deriving DecidableEq, Repr

def u64FromBit (x : ℕ) : ℕ := 1 <<< x

theorem u64FromBit_eq (x : ℕ) : u64FromBit x = 2 ^ x := Nat.one_shiftLeft x

def bufferLength (b : Ringbuf) : ℕ := b.end' - b.start

def ringbufProduce (b : Ringbuf) (len : ℕ) : Ringbuf := { b with end' := b.end' + len }

def ringbufConsume (b : Ringbuf) (len : ℕ) : Ringbuf := { b with start := b.start + len }

def ringbufUnconsume (b : Ringbuf) (len : ℕ) : Ringbuf := { b with start := b.start - len }

def ringbufSpace (b : Ringbuf) : ℕ := b.length - bufferLength b

/-- `ringbuf_write_at`: copy `src` into the ring from counter `destOffset`. -/
def ringbufWriteAt (b : Ringbuf) (destOffset : ℕ) (src : List UInt8) : Ringbuf :=
  let dest := destOffset &&& (b.length - 1)
  let avail := min src.length (b.length - dest)
  let contents := copyAt b.contents dest (src.take avail)
  { b with contents := if avail < src.length then copyAt contents 0 (src.drop avail) else contents }

/-- `ringbuf_peek`: the oldest `len` bytes, `none` when fewer are buffered. -/
def ringbufPeek (b : Ringbuf) (len : ℕ) : Option (List UInt8) :=
  if bufferLength b < len then none
  else
    let start := b.start &&& (b.length - 1)
    let avail := min len (b.length - start)
    let dest := (b.contents.drop start).take avail
    some (if avail < len then dest ++ b.contents.take (len - avail) else dest)

def ringbufRead (b : Ringbuf) (len : ℕ) : Option (List UInt8) × Ringbuf :=
  match ringbufPeek b len with
  | none => (none, b)
  | some dest => (some dest, ringbufConsume b len)

/-- `ringbuf_set_capacity`: the capacity it ends with, and the ringbuf. -/
def ringbufSetCapacity (ok : Bool) (b : Ringbuf) (len : ℕ) : ℕ × Ringbuf :=
  let len := if len < bufferLength b then bufferLength b else len
  let len := u64FromBit (findOrder len)
  if len ≠ b.length then
    if ok then
      let new := copyAt (List.replicate len 0) 0 ((ringbufPeek b (bufferLength b)).getD [])
      (len, ⟨0, b.end' - b.start, len, new⟩)
    else (b.length, b)
  else (len, b)

/-- `ringbuf_extend`: make room for `len` more bytes. -/
def ringbufExtend (ok : Bool) (b : Ringbuf) (len : ℕ) : Bool × Ringbuf :=
  if ringbufSpace b < len then
    let newLen := if len ≤ b.length then 2 * b.length else u64FromBit (findOrder len + 1)
    let (r, b) := ringbufSetCapacity ok b newLen
    (decide (r = newLen), b)
  else (true, b)

def ringbufWrite (ok : Bool) (b : Ringbuf) (src : List UInt8) : Bool × Ringbuf :=
  let (r, b) := ringbufExtend ok b src.length
  if r then (true, ringbufProduce (ringbufWriteAt b b.end' src) src.length) else (false, b)

/-- `ringbuf_memset`: the same steps as `ringbuf_write`, with two fills for the two copies. -/
def ringbufMemset (ok : Bool) (b : Ringbuf) (c : UInt8) (len : ℕ) : Bool × Ringbuf :=
  let (r, b) := ringbufExtend ok b len
  if r then
    let end' := b.end' &&& (b.length - 1)
    let avail := min len (b.length - end')
    let contents := fillAt b.contents end' c avail
    let contents := if avail < len then fillAt contents 0 c (len - avail) else contents
    (true, ringbufProduce { b with contents := contents } len)
  else (false, b)

/-- `ringbuf_overwrite`: copy `src` over the buffered bytes from `offset` on. -/
def ringbufOverwrite (b : Ringbuf) (offset : ℕ) (src : List UInt8) : Ringbuf :=
  ringbufWriteAt b (b.start + offset) src

/-! ## The queue a ringbuf holds -/

/-- What a ringbuf holds: the bytes buffered, oldest first, and the bytes consumed since the
    last write or resize, oldest first, which `ringbuf_unconsume` may give back. -/
structure Fifo where
  queue : List UInt8
  consumed : List UInt8
  deriving DecidableEq, Repr

namespace Fifo

def peek (f : Fifo) (len : ℕ) : Option (List UInt8) :=
  if f.queue.length < len then none else some (f.queue.take len)

/-- Append bytes; what was consumed before can no longer be given back. -/
def write (f : Fifo) (src : List UInt8) : Fifo := ⟨f.queue ++ src, []⟩

def consume (f : Fifo) (len : ℕ) : Fifo := ⟨f.queue.drop len, f.consumed ++ f.queue.take len⟩

def unconsume (f : Fifo) (len : ℕ) : Fifo :=
  ⟨f.consumed.drop (f.consumed.length - len) ++ f.queue, f.consumed.take (f.consumed.length - len)⟩

/-- Replace the buffered bytes from `offset` on by `src`. -/
def overwrite (f : Fifo) (offset : ℕ) (src : List UInt8) : Fifo :=
  ⟨f.queue.take offset ++ src ++ f.queue.drop (offset + src.length), f.consumed⟩

/-- A resize keeps the bytes buffered and not the ones consumed. -/
def resize (f : Fifo) : Fifo := ⟨f.queue, []⟩

end Fifo

/-- The ring holds the queue: a power-of-two capacity, and the bytes consumed followed by the
    bytes buffered are the arc of the ring that ends at `end`. -/
structure Rep (b : Ringbuf) (f : Fifo) : Prop where
  pow : ∃ k, b.length = 2 ^ k
  size : b.contents.length = b.length
  start_le : b.start ≤ b.end'
  buffered : bufferLength b = f.queue.length
  room : f.consumed.length + f.queue.length ≤ b.length
  consumed_le : f.consumed.length ≤ b.start
  data : window b.contents (b.start - f.consumed.length) (f.consumed.length + f.queue.length) =
    f.consumed ++ f.queue

/-- Every ringbuf with a power-of-two capacity and at most that many bytes buffered holds the
    queue of those bytes. -/
theorem rep_of_bounds (b : Ringbuf) (hp : ∃ k, b.length = 2 ^ k) (hs : b.contents.length = b.length)
    (hse : b.start ≤ b.end') (hb : bufferLength b ≤ b.length) :
    Rep b ⟨window b.contents b.start (bufferLength b), []⟩ where
  pow := hp
  size := hs
  start_le := hse
  buffered := by simp
  room := by simpa using hb
  consumed_le := Nat.zero_le _
  data := by simp

theorem mask_eq {L : ℕ} (h : ∃ k, L = 2 ^ k) (x : ℕ) : x &&& (L - 1) = x % L := by
  obtain ⟨k, rfl⟩ := h
  exact Nat.and_two_pow_sub_one_eq_mod x k

theorem length_pos {L : ℕ} (h : ∃ k, L = 2 ^ k) : 0 < L := by
  obtain ⟨k, rfl⟩ := h
  exact Nat.two_pow_pos k

theorem mask_mod_u64 {L : ℕ} (h : ∃ k, L = 2 ^ k) (hL : L < 2 ^ 64) (x : ℕ) :
    x % 2 ^ 64 &&& (L - 1) = x &&& (L - 1) := by
  obtain ⟨k, rfl⟩ := h
  have hk : k ≤ 64 := ((Nat.pow_lt_pow_iff_right (by decide)).1 hL).le
  rw [mask_eq ⟨k, rfl⟩, mask_eq ⟨k, rfl⟩, Nat.mod_mod_of_dvd _ (Nat.pow_dvd_pow 2 hk)]

theorem sub_mod_u64 {s e : ℕ} (h : s ≤ e) (hd : e - s < 2 ^ 64) :
    (e % 2 ^ 64 + 2 ^ 64 - s % 2 ^ 64) % 2 ^ 64 = e - s := by
  omega

namespace Rep
variable {b : Ringbuf} {f : Fifo}

theorem queue_eq (h : Rep b f) : window b.contents b.start f.queue.length = f.queue := by
  have := window_sub h.data (Nat.le_refl (f.consumed.length + f.queue.length))
  rw [Nat.sub_add_cancel h.consumed_le, List.drop_left, List.take_length] at this
  exact this

/-- The calls read the counters only through the mask and through `buffer_length`, and on a ring
    that holds a queue both are the same on the `u64` counters of the source, which wrap at
    `2 ^ 64`, as on the unbounded counters of the model. -/
theorem counters_u64 (h : Rep b f) (hL : b.length < 2 ^ 64) (x : ℕ) :
    x % 2 ^ 64 &&& (b.length - 1) = x &&& (b.length - 1) ∧
      (b.end' % 2 ^ 64 + 2 ^ 64 - b.start % 2 ^ 64) % 2 ^ 64 = bufferLength b := by
  have hbuf : bufferLength b ≤ b.length := by
    have := h.room
    rw [h.buffered]
    omega
  exact ⟨mask_mod_u64 h.pow hL x, sub_mod_u64 h.start_le (lt_of_le_of_lt hbuf hL)⟩

theorem resize (h : Rep b f) : Rep b f.resize where
  pow := h.pow
  size := h.size
  start_le := h.start_le
  buffered := h.buffered
  room := by have := h.room; simp only [Fifo.resize, List.length_nil]; omega
  consumed_le := by simp [Fifo.resize]
  data := by simpa [Fifo.resize] using h.queue_eq

end Rep

/-- `ringbuf_peek` reads the oldest bytes, or fails when fewer are buffered. -/
theorem ringbufPeek_rep {b : Ringbuf} {f : Fifo} (h : Rep b f) (len : ℕ) :
    ringbufPeek b len = f.peek len := by
  unfold ringbufPeek Fifo.peek
  rw [h.buffered]
  split
  · rfl
  · rename_i hlen
    have hL : 0 < b.contents.length := h.size ▸ length_pos h.pow
    have hn : len ≤ b.contents.length := by have := h.room; have := h.size; omega
    rw [mask_eq h.pow, ← h.size]
    dsimp only
    rw [take_drop_wrap b.contents (Nat.mod_lt _ hL) hn rfl, window_mod, ← Nat.add_zero b.start,
      window_sub h.queue_eq (by omega), List.drop_zero]

/-- `ringbuf_consume` of at most the bytes buffered. -/
theorem ringbufConsume_rep {b : Ringbuf} {f : Fifo} (h : Rep b f) {len : ℕ}
    (hlen : len ≤ f.queue.length) : Rep (ringbufConsume b len) (f.consume len) where
  pow := h.pow
  size := h.size
  start_le := by
    have hb := h.buffered
    have hs := h.start_le
    simp only [bufferLength] at hb
    simp only [ringbufConsume]
    omega
  buffered := by
    have hb := h.buffered
    have hs := h.start_le
    simp only [bufferLength, ringbufConsume, Fifo.consume, List.length_drop] at hb ⊢
    omega
  room := by have := h.room; simp [ringbufConsume, Fifo.consume]; omega
  consumed_le := by have := h.consumed_le; simp [ringbufConsume, Fifo.consume]; omega
  data := by
    have hd := h.data
    simp only [ringbufConsume, Fifo.consume, List.length_append, List.length_take,
      List.length_drop, List.append_assoc, List.take_append_drop]
    rw [show b.start + len - (f.consumed.length + min len f.queue.length) =
        b.start - f.consumed.length by have := h.consumed_le; omega,
      show f.consumed.length + min len f.queue.length + (f.queue.length - len) =
        f.consumed.length + f.queue.length by omega]
    exact hd

/-- `ringbuf_unconsume` of at most the bytes consumed since the last write or resize. -/
theorem ringbufUnconsume_rep {b : Ringbuf} {f : Fifo} (h : Rep b f) {len : ℕ}
    (hlen : len ≤ f.consumed.length) : Rep (ringbufUnconsume b len) (f.unconsume len) where
  pow := h.pow
  size := h.size
  start_le := by have := h.start_le; simp [ringbufUnconsume]; omega
  buffered := by
    have hb := h.buffered
    have hc := h.consumed_le
    have hs := h.start_le
    simp only [bufferLength, ringbufUnconsume, Fifo.unconsume, List.length_append,
      List.length_drop] at hb ⊢
    omega
  room := by have := h.room; simp [ringbufUnconsume, Fifo.unconsume]; omega
  consumed_le := by have := h.consumed_le; simp [ringbufUnconsume, Fifo.unconsume]; omega
  data := by
    have hd := h.data
    simp only [ringbufUnconsume, Fifo.unconsume, List.length_append, List.length_take,
      List.length_drop, ← List.append_assoc, List.take_append_drop]
    rw [show b.start - len - min (f.consumed.length - len) f.consumed.length =
        b.start - f.consumed.length by have := h.consumed_le; omega,
      show min (f.consumed.length - len) f.consumed.length +
        (f.consumed.length - (f.consumed.length - len) + f.queue.length) =
        f.consumed.length + f.queue.length by omega]
    exact hd

/-- `ringbuf_write_at` of at most a ring's worth of bytes: the arc from the counter holds them,
    and the rest of the ring is as it was. -/
theorem ringbufWriteAt_contents (b : Ringbuf) (d : ℕ) (src : List UInt8) (hpow : ∃ k, b.length = 2 ^ k)
    (hsize : b.contents.length = b.length) (hn : src.length ≤ b.length) :
    (ringbufWriteAt b d src).contents.length = b.length ∧
      window (ringbufWriteAt b d src).contents d src.length = src ∧
      window (ringbufWriteAt b d src).contents (d + src.length) (b.length - src.length) =
        window b.contents (d + src.length) (b.length - src.length) := by
  have hL : 0 < b.contents.length := hsize ▸ length_pos hpow
  obtain ⟨h1, h2, h3⟩ := copyAt_wrap b.contents src (Nat.mod_lt d hL) (hsize ▸ hn) rfl
  simp only [ringbufWriteAt, mask_eq hpow]
  rw [← hsize]
  refine ⟨h1, ?_, ?_⟩
  · rw [← window_mod, h1]
    exact h2
  · rw [← window_mod_add _ d, h1, h3, window_mod_add]

@[simp] theorem ringbufWriteAt_start (b : Ringbuf) (d : ℕ) (src : List UInt8) :
    (ringbufWriteAt b d src).start = b.start := rfl

@[simp] theorem ringbufWriteAt_end (b : Ringbuf) (d : ℕ) (src : List UInt8) :
    (ringbufWriteAt b d src).end' = b.end' := rfl

@[simp] theorem ringbufWriteAt_length (b : Ringbuf) (d : ℕ) (src : List UInt8) :
    (ringbufWriteAt b d src).length = b.length := rfl

/-- `ringbuf_overwrite` within the bytes buffered replaces them in place. -/
theorem ringbufOverwrite_rep {b : Ringbuf} {f : Fifo} (h : Rep b f) {offset : ℕ} {src : List UInt8}
    (hw : offset + src.length ≤ f.queue.length) :
    Rep (ringbufOverwrite b offset src) (f.overwrite offset src) := by
  have hroom := h.room
  have hcs := h.consumed_le
  obtain ⟨h1, h2, h3⟩ := ringbufWriteAt_contents b (b.start + offset) src h.pow h.size (by omega)
  have hlen : (f.overwrite offset src).queue.length = f.queue.length := by
    simp only [Fifo.overwrite, List.length_append, List.length_take, List.length_drop]
    omega
  refine ⟨h.pow, h1, h.start_le, hlen ▸ h.buffered, hlen ▸ hroom, hcs, ?_⟩
  -- the arc splits at the block written: before it and after it the ring is as it was
  set r := (ringbufWriteAt b (b.start + offset) src).contents
  have hsplit : f.consumed.length + f.queue.length =
      f.consumed.length + offset + src.length + (f.queue.length - offset - src.length) := by omega
  have hbefore : window r (b.start - f.consumed.length) (f.consumed.length + offset) =
      f.consumed ++ f.queue.take offset := by
    rw [window_inner_round (h1.trans h.size.symm) h3
      (show b.start - f.consumed.length + b.contents.length = b.start + offset + src.length +
        (b.length - src.length - f.consumed.length - offset) by rw [h.size]; omega) (by omega),
      ← Nat.add_zero (b.start - f.consumed.length), window_sub h.data (by omega)]
    simp [List.take_append, List.take_of_length_le (show f.consumed.length ≤ f.consumed.length + offset
      by omega)]
  have hafter : window r (b.start + offset + src.length) (f.queue.length - offset - src.length) =
      f.queue.drop (offset + src.length) := by
    rw [← Nat.add_zero (b.start + offset + src.length), window_inner h3 (by omega),
      show b.start + offset + src.length + 0 = b.start - f.consumed.length +
        (f.consumed.length + offset + src.length) by omega, window_sub h.data (by omega)]
    rw [List.drop_append, List.drop_of_length_le (by omega), List.nil_append,
      show f.consumed.length + offset + src.length - f.consumed.length = offset + src.length by omega,
      List.take_of_length_le (by simp; omega)]
  rw [hlen]
  show window r (b.start - f.consumed.length) (f.consumed.length + f.queue.length) =
    f.consumed ++ (f.queue.take offset ++ src ++ f.queue.drop (offset + src.length))
  rw [hsplit, window_add, window_add, hbefore,
    show b.start - f.consumed.length + (f.consumed.length + offset) = b.start + offset by omega, h2,
    show b.start - f.consumed.length + (f.consumed.length + offset + src.length) =
      b.start + offset + src.length by omega, hafter]
  simp

/-- `ringbuf_read` returns the oldest bytes and consumes them, or fails and changes nothing. -/
theorem ringbufRead_rep {b : Ringbuf} {f : Fifo} (h : Rep b f) (len : ℕ) :
    (ringbufRead b len).1 = f.peek len ∧
      Rep (ringbufRead b len).2 (if f.queue.length < len then f else f.consume len) := by
  unfold ringbufRead
  rw [ringbufPeek_rep h]
  by_cases hlen : f.queue.length < len
  · simp only [Fifo.peek, if_pos hlen]
    exact ⟨trivial, h⟩
  · simp only [Fifo.peek, if_neg hlen]
    exact ⟨trivial, ringbufConsume_rep h (by omega)⟩

/-! ## Growth -/

theorem findOrder_two_pow (k : ℕ) : findOrder (2 ^ k) = k := by
  unfold findOrder
  split
  · rename_i hk
    obtain ⟨j, rfl⟩ : ∃ j, k = j + 1 := ⟨k - 1, by have := (Nat.one_lt_two_pow_iff).mp hk; omega⟩
    have hj := @Nat.one_le_two_pow j
    have hp : 2 ^ (j + 1) = 2 * 2 ^ j := by rw [Nat.pow_succ]; omega
    rw [hp, (@Nat.log2_eq_iff (2 * 2 ^ j - 1) j (by omega)).mpr ⟨by omega, by rw [hp.symm, hp]; omega⟩]
  · rename_i hk
    have : k = 0 := by
      by_cases h0 : k = 0
      · exact h0
      · exact absurd ((Nat.one_lt_two_pow_iff).mpr h0) hk
    rw [this]

/-- `ringbuf_set_capacity` with the allocation succeeding: the capacity is the power of two at or
    above both the request and the bytes buffered, and the bytes buffered are kept. -/
theorem ringbufSetCapacity_rep {b : Ringbuf} {f : Fifo} (h : Rep b f) (len : ℕ) :
    ∃ b', ringbufSetCapacity true b len = (b'.length, b') ∧ Rep b' f.resize ∧
      b'.length = 2 ^ findOrder (max len f.queue.length) := by
  have hcap : u64FromBit (findOrder (if len < bufferLength b then bufferLength b else len)) =
      2 ^ findOrder (max len f.queue.length) := by
    rw [h.buffered, u64FromBit_eq]
    congr 2
    split <;> omega
  have hge := le_two_pow_findOrder (max len f.queue.length)
  unfold ringbufSetCapacity
  dsimp only
  rw [hcap]
  split
  · -- a new ring: the bytes buffered are copied to its start and the counters rebased
    have hpeek : (ringbufPeek b (bufferLength b)).getD [] = f.queue := by
      rw [ringbufPeek_rep h, h.buffered, Fifo.peek, if_neg (Nat.lt_irrefl _), List.take_length]
      rfl
    rw [if_pos rfl, hpeek]
    refine ⟨⟨0, b.end' - b.start, 2 ^ findOrder (max len f.queue.length), _⟩, rfl, ?_, rfl⟩
    have hsize : f.queue.length ≤ (List.replicate (2 ^ findOrder (max len f.queue.length)) (0 : UInt8)).length := by
      simp only [List.length_replicate]
      omega
    exact {
      pow := ⟨_, rfl⟩
      size := by rw [length_copyAt _ _ (by simpa using hsize), List.length_replicate]
      start_le := Nat.zero_le _
      buffered := by have := h.buffered; simpa [bufferLength, Fifo.resize] using this
      room := by simp only [Fifo.resize, List.length_nil]; omega
      consumed_le := by simp [Fifo.resize]
      data := by simpa [Fifo.resize] using window_copyAt_zero _ f.queue hsize }
  · -- the capacity stays: nothing moves
    rename_i hsame
    have hL : 2 ^ findOrder (max len f.queue.length) = b.length := by simpa using hsame
    exact ⟨b, by rw [hL], h.resize, hL.symm⟩

/-- `ringbuf_extend` with the allocation succeeding makes room for the request and keeps the bytes
    buffered: a request that fits in the capacity doubles it, a larger one takes the power of two
    at or above twice the request. -/
theorem ringbufExtend_rep {b : Ringbuf} {f : Fifo} (h : Rep b f) (len : ℕ) :
    ∃ b', ringbufExtend true b len = (true, b') ∧ Rep b' f.resize ∧ len ≤ ringbufSpace b' := by
  have hq := h.buffered
  have hroom := h.room
  unfold ringbufExtend
  split
  · rename_i hspace
    -- the new capacity is a power of two with room for the bytes buffered and the request
    have hnew : ∃ m, (if len ≤ b.length then 2 * b.length else u64FromBit (findOrder len + 1)) = 2 ^ m ∧
        len + f.queue.length ≤ 2 ^ m := by
      obtain ⟨k, hk⟩ := h.pow
      split
      · exact ⟨k + 1, by rw [hk, Nat.pow_succ]; omega, by rw [Nat.pow_succ]; omega⟩
      · have hle := le_two_pow_findOrder len
        exact ⟨findOrder len + 1, u64FromBit_eq _, by rw [Nat.pow_succ]; omega⟩
    obtain ⟨m, hm, hfit⟩ := hnew
    obtain ⟨b', hset, hrep, hcap⟩ := ringbufSetCapacity_rep h (if len ≤ b.length then 2 * b.length
      else u64FromBit (findOrder len + 1))
    have hlen : b'.length = 2 ^ m := by
      rw [hcap, hm, Nat.max_eq_left (by omega), findOrder_two_pow]
    dsimp only
    rw [hset]
    refine ⟨b', by simp [hlen, hm], hrep, ?_⟩
    have := hrep.buffered
    simp only [ringbufSpace, hlen, this, Fifo.resize]
    omega
  · exact ⟨b, rfl, h.resize, by omega⟩

/-- `ringbuf_write` with the allocation succeeding appends exactly the bytes given. -/
theorem ringbufWrite_rep {b : Ringbuf} {f : Fifo} (h : Rep b f) (src : List UInt8) :
    ∃ b', ringbufWrite true b src = (true, b') ∧ Rep b' (f.write src) := by
  obtain ⟨b1, hext, h1, hspace⟩ := ringbufExtend_rep h src.length
  unfold ringbufWrite
  rw [hext]
  refine ⟨_, rfl, ?_⟩
  have hq := h1.buffered
  have hs := h1.start_le
  have hr := h1.room
  simp only [bufferLength, Fifo.resize, List.length_nil, Nat.zero_add] at hq hr
  simp only [ringbufSpace, bufferLength] at hspace
  obtain ⟨c1, c2, c3⟩ := ringbufWriteAt_contents b1 b1.end' src h1.pow h1.size (by omega)
  set r := (ringbufWriteAt b1 b1.end' src).contents
  -- the bytes buffered lie in the part of the ring the write leaves alone
  have hold : window r b1.start f.queue.length = f.queue := by
    rw [window_inner_round (c1.trans h1.size.symm) c3
      (show b1.start + b1.contents.length = b1.end' + src.length +
        (b1.length - src.length - f.queue.length) by rw [h1.size]; omega) (by omega)]
    simpa [Fifo.resize] using h1.queue_eq
  exact {
    pow := h1.pow
    size := c1
    start_le := by simp only [ringbufProduce, ringbufWriteAt_start, ringbufWriteAt_end]; omega
    buffered := by
      simp only [bufferLength, ringbufProduce, ringbufWriteAt_start, ringbufWriteAt_end, Fifo.write,
        List.length_append]
      omega
    room := by
      simp only [Fifo.write, List.length_nil, List.length_append, ringbufProduce,
        ringbufWriteAt_length]
      omega
    consumed_le := by simp [Fifo.write]
    data := by
      simp only [ringbufProduce, ringbufWriteAt_start, Fifo.write, List.length_nil, Nat.sub_zero,
        Nat.zero_add, List.nil_append, List.length_append]
      rw [window_add, hold, show b1.start + f.queue.length = b1.end' by omega, c2] }

/-- `ringbuf_memset` is `ringbuf_write` of `len` copies of the byte. -/
theorem ringbufMemset_eq (ok : Bool) (b : Ringbuf) (c : UInt8) (len : ℕ) :
    ringbufMemset ok b c len = ringbufWrite ok b (List.replicate len c) := by
  unfold ringbufMemset ringbufWrite
  rw [List.length_replicate]
  rcases ringbufExtend ok b len with ⟨r, b1⟩
  dsimp only
  split
  · have hmin (a : ℕ) : min (min len a) len = min len a := Nat.min_eq_left (Nat.min_le_left _ _)
    simp only [ringbufWriteAt, fillAt_eq_copyAt, List.take_replicate, List.drop_replicate,
      List.length_replicate, hmin]
  · rfl

/-! ## Runs of calls -/

inductive Op where
  | write (src : List UInt8)
  | memset (c : UInt8) (len : ℕ)
  | read (len : ℕ)
  | peek (len : ℕ)
  | consume (len : ℕ)
  | unconsume (len : ℕ)
  | overwrite (offset : ℕ) (src : List UInt8)
  | setCapacity (len : ℕ)
  deriving DecidableEq, Repr

inductive Reply where
  | done
  | flag (ok : Bool)
  | bytes (d : Option (List UInt8))
  | capacity (len : ℕ)
  deriving DecidableEq, Repr

/-- One call, with the allocations it makes succeeding: its answer and the ringbuf after it. -/
def call (b : Ringbuf) : Op → Reply × Ringbuf
  | .write src => ((ringbufWrite true b src).1, (ringbufWrite true b src).2) |>.map .flag id
  | .memset c len => ((ringbufMemset true b c len).1, (ringbufMemset true b c len).2) |>.map .flag id
  | .read len => ((ringbufRead b len).1, (ringbufRead b len).2) |>.map .bytes id
  | .peek len => (.bytes (ringbufPeek b len), b)
  | .consume len => (.done, ringbufConsume b len)
  | .unconsume len => (.done, ringbufUnconsume b len)
  | .overwrite offset src => (.done, ringbufOverwrite b offset src)
  | .setCapacity len =>
    ((ringbufSetCapacity true b len).1, (ringbufSetCapacity true b len).2) |>.map .capacity id

/-- A run of calls: the answers, and the ringbuf at the end. -/
def run (b : Ringbuf) : List Op → List Reply × Ringbuf
  | [] => ([], b)
  | op :: ops => ((call b op).1 :: (run (call b op).2 ops).1, (run (call b op).2 ops).2)

namespace Fifo

/-- What a call needs: a consume of at most the bytes buffered, an unconsume of at most the
    bytes consumed since the last write or resize, an overwrite within the bytes buffered. -/
def Pre (f : Fifo) : Op → Prop
  | .consume len => len ≤ f.queue.length
  | .unconsume len => len ≤ f.consumed.length
  | .overwrite offset src => offset + src.length ≤ f.queue.length
  | _ => True

def step (f : Fifo) : Op → Fifo
  | .write src => f.write src
  | .memset c len => f.write (List.replicate len c)
  | .read len => if f.queue.length < len then f else f.consume len
  | .peek _ => f
  | .consume len => f.consume len
  | .unconsume len => f.unconsume len
  | .overwrite offset src => f.overwrite offset src
  | .setCapacity _ => f.resize

/-- The answers the queue allows: a write succeeds, a read or peek gives the oldest bytes or
    fails, and a resize ends at a power of two with room for the request and the bytes
    buffered. -/
def Allowed (f : Fifo) : Op → Reply → Prop
  | .write _, r => r = .flag true
  | .memset _ _, r => r = .flag true
  | .read len, r => r = .bytes (f.peek len)
  | .peek len, r => r = .bytes (f.peek len)
  | .setCapacity len, r => ∃ k, r = .capacity (2 ^ k) ∧ len ≤ 2 ^ k ∧ f.queue.length ≤ 2 ^ k
  | _, r => r = .done

def Valid : Fifo → List Op → Prop
  | _, [] => True
  | f, op :: ops => f.Pre op ∧ Valid (f.step op) ops

def run (f : Fifo) (ops : List Op) : Fifo := ops.foldl step f

end Fifo

/-- One call on a ringbuf that holds a queue answers as the queue allows and holds the queue
    the call leaves. -/
theorem call_rep {b : Ringbuf} {f : Fifo} (h : Rep b f) {op : Op} (hp : f.Pre op) :
    f.Allowed op (call b op).1 ∧ Rep (call b op).2 (f.step op) := by
  cases op with
  | write src =>
    obtain ⟨b', he, hr⟩ := ringbufWrite_rep h src
    simp only [call, he, Prod.map]
    exact ⟨rfl, hr⟩
  | memset c len =>
    obtain ⟨b', he, hr⟩ := ringbufWrite_rep h (List.replicate len c)
    simp only [call, ringbufMemset_eq, he, Prod.map]
    exact ⟨rfl, hr⟩
  | read len =>
    obtain ⟨he, hr⟩ := ringbufRead_rep h len
    simp only [call, he, Prod.map]
    exact ⟨rfl, hr⟩
  | peek len => exact ⟨by simp [call, Fifo.Allowed, ringbufPeek_rep h], h⟩
  | consume len => exact ⟨rfl, ringbufConsume_rep h hp⟩
  | unconsume len => exact ⟨rfl, ringbufUnconsume_rep h hp⟩
  | overwrite offset src => exact ⟨rfl, ringbufOverwrite_rep h hp⟩
  | setCapacity len =>
    obtain ⟨b', he, hr, hcap⟩ := ringbufSetCapacity_rep h len
    have hge := le_two_pow_findOrder (max len f.queue.length)
    simp only [call, he, Prod.map]
    exact ⟨⟨_, by rw [hcap], by omega, by omega⟩, hr⟩

end Nanos.Ringbufs
