import Nanos.Transition
import Mathlib.Data.List.Basic
import Mathlib.Data.Int.Notation

set_option autoImplicit false

/-!
# `unix/pipe.c`: pipes

A pipe buffers in `p->data`, of at most `p->max_size` bytes, what was written and not yet read.
The bottom halves of `pipe_read` and `pipe_write` run under the pipe lock and complete or ask to
block, so each is one atomic step, and an interleaving of reads, writes and closes is a run of
steps. The blockqs, notifications and reference count are left out; a fault of the copy is an
argument.

`pipe_write_bh` looks at the read end only when the buffer is full (`pipe_write_short`). The
reads return a prefix of what the writes took, and the buffer stays within `max_size`
(`pipe_reachable_inv`).
-/

namespace Nanos.Pipes
open Transition

def eagain : ℤ := 11

def efault : ℤ := 14

def einval : ℤ := 22

def epipe : ℤ := 32

def eopnotsupp : ℤ := 95

def erestartsys : ℤ := 512

def blockqActionNullify : ℕ := 2

def oNonblock : ℕ := 0o4000

def oDirect : ℕ := 0o40000

def oCloexec : ℕ := 0o2000000

def epollin : ℕ := 0x001

def epollout : ℕ := 0x004

def epollhup : ℕ := 0x010

/-- `DEFAULT_PIPE_MAX_SIZE`, sixteen pages. -/
def defaultPipeMaxSize : ℕ := 16 * 4096

variable {α : Type}

/-- The fields of a pipe that its calls read and write: the bytes of `p->data`,
    `p->max_size`, whether the `fd` of each end is still set, and the `O_NONBLOCK` bit of
    the flags of each end. -/
structure Pipe (α : Type) where
  data : List α
  maxSize : ℕ
  readOpen : Bool
  writeOpen : Bool
  readNonblock : Bool
  writeNonblock : Bool
deriving DecidableEq

/-- What a bottom half does: it asks to block, or it completes with its return value, the
    bytes it moved (those returned by a read, those taken by a write) and the new pipe. -/
inductive Bh (α : Type)
  | block
  | done (rv : ℤ) (bytes : List α) (p : Pipe α)
deriving DecidableEq

inductive End
  | read
  | write
deriving DecidableEq

/-- `pipe_read_bh(pf, dest, length, completion)` run with the blockq action flags `flags`. -/
def pipeReadBh (p : Pipe α) (length flags : ℕ) (fault : Bool) : Bh α :=
  if flags &&& blockqActionNullify ≠ 0 then .done (-erestartsys) [] p
  else
    let rv := min p.data.length length
    if rv = 0 then
      -- nothing to read: end of file once the write end is closed
      if !p.writeOpen then .done 0 [] p
      else if p.readNonblock then .done (-eagain) [] p
      else .block
    else if fault then .done (-efault) [] p
    else .done rv (p.data.take rv) { p with data := p.data.drop rv }

/-- `pipe_read(dest, length, ...)`: a read of no bytes completes at once. -/
def pipeRead (p : Pipe α) (length flags : ℕ) (fault : Bool) : Bh α :=
  if length = 0 then .done 0 [] p else pipeReadBh p length flags fault

/-- `pipe_write_bh(pf, dest, length, completion)` run with the blockq action flags `flags`,
    where `src` holds the `length` bytes at `dest`. -/
def pipeWriteBh (p : Pipe α) (src : List α) (flags : ℕ) (fault : Bool) : Bh α :=
  if flags &&& blockqActionNullify ≠ 0 then .done (-erestartsys) [] p
  else
    let avail := p.maxSize - p.data.length
    if avail = 0 then
      -- the read end is looked at only when the buffer is full
      if !p.readOpen then .done (-epipe) [] p
      else if p.writeNonblock then .done (-eagain) [] p
      else .block
    else
      let realLength := min src.length avail
      if fault then .done (-efault) [] p
      else .done realLength (src.take realLength) { p with data := p.data ++ src.take realLength }

/-- `pipe_write(dest, length, ...)`: a write of no bytes completes at once. -/
def pipeWrite (p : Pipe α) (src : List α) (flags : ℕ) (fault : Bool) : Bh α :=
  if src.length = 0 then .done 0 [] p else pipeWriteBh p src flags fault

/-- `pipe_dealloc_end(p, pf)`, from `pipe_close`: the end's `fd` becomes `-1`. -/
def pipeDeallocEnd (p : Pipe α) : End → Pipe α
  | .read => { p with readOpen := false }
  | .write => { p with writeOpen := false }

def pipeReadEvents (p : Pipe α) : ℕ :=
  (if p.data.length ≠ 0 then epollin else 0) ||| (if !p.writeOpen then epollhup else 0)

def pipeWriteEvents (p : Pipe α) : ℕ :=
  (if p.data.length < p.maxSize then epollout else 0) ||| (if !p.readOpen then epollhup else 0)

/-- `do_pipe2(fds, flags)` when its allocations succeed: the new pipe, or the error. The test
    `flags & ~(O_CLOEXEC | O_DIRECT | O_NONBLOCK)` is written as a bit outside the mask. -/
def doPipe2 (flags : ℕ) : Except ℤ (Pipe α) :=
  if flags &&& (oCloexec ||| oDirect ||| oNonblock) ≠ flags then .error (-einval)
  else if flags &&& oDirect ≠ 0 then .error (-eopnotsupp)
  else .ok ⟨[], defaultPipeMaxSize, true, true, flags &&& oNonblock ≠ 0, flags &&& oNonblock ≠ 0⟩

/-! ## What a bottom half can do -/

section bh
variable {p p' : Pipe α} {src bytes : List α} {length flags : ℕ} {fault : Bool} {rv : ℤ}

theorem pipeReadBh_done (h : pipeReadBh p length flags fault = .done rv bytes p') :
    p.data = bytes ++ p'.data ∧ p' = { p with data := p'.data } := by
  unfold pipeReadBh at h
  dsimp only at h
  split_ifs at h <;> cases h <;> simp

theorem pipeWriteBh_done (h : pipeWriteBh p src flags fault = .done rv bytes p') :
    p'.data = p.data ++ bytes ∧ bytes.length ≤ p.maxSize - p.data.length ∧
      p' = { p with data := p'.data } := by
  unfold pipeWriteBh at h
  dsimp only at h
  split_ifs at h <;> cases h
  -- the refusals leave the pipe as it was
  iterate 4 simp
  refine ⟨rfl, ?_, rfl⟩
  rw [List.length_take]
  omega

theorem pipeRead_done (h : pipeRead p length flags fault = .done rv bytes p') :
    p.data = bytes ++ p'.data ∧ p' = { p with data := p'.data } := by
  unfold pipeRead at h
  split_ifs at h
  · cases h
    simp
  · exact pipeReadBh_done h

theorem pipeWrite_done (h : pipeWrite p src flags fault = .done rv bytes p') :
    p'.data = p.data ++ bytes ∧ bytes.length ≤ p.maxSize - p.data.length ∧
      p' = { p with data := p'.data } := by
  unfold pipeWrite at h
  split_ifs at h
  · cases h
    simp
  · exact pipeWriteBh_done h

/-- A write of bytes into a full pipe: `-EPIPE` once the read end is closed, else `-EAGAIN`
    or a block. -/
theorem pipeWrite_of_full (hs : src ≠ []) (hn : flags &&& blockqActionNullify = 0)
    (hfull : p.maxSize ≤ p.data.length) :
    pipeWrite p src flags fault =
      if !p.readOpen then .done (-epipe) [] p
      else if p.writeNonblock then .done (-eagain) [] p else .block := by
  have havail : p.maxSize - p.data.length = 0 := by omega
  simp [pipeWrite, pipeWriteBh, hs, hn, havail]

/-- With room in the buffer a write takes what fits and completes, or returns `-EFAULT`,
    whether or not the read end is open and whether or not the write end blocks. -/
theorem pipeWrite_of_room (hs : src ≠ []) (hn : flags &&& blockqActionNullify = 0)
    (hroom : p.data.length < p.maxSize) :
    pipeWrite p src flags fault =
      if fault then .done (-efault) [] p
      else .done ((min src.length (p.maxSize - p.data.length) : ℕ) : ℤ)
        (src.take (min src.length (p.maxSize - p.data.length)))
        { p with data := p.data ++ src.take (min src.length (p.maxSize - p.data.length)) } := by
  have havail : p.maxSize - p.data.length ≠ 0 := by omega
  simp [pipeWrite, pipeWriteBh, hs, hn, havail]

/-- A write of bytes returns `-EPIPE` exactly when the buffer is full and the read end is
    closed: with room left, a closed read end goes unnoticed. -/
theorem pipeWrite_epipe_iff (hs : src ≠ []) (hn : flags &&& blockqActionNullify = 0) :
    (∃ p', pipeWrite p src flags fault = .done (-epipe) [] p') ↔
      p.maxSize ≤ p.data.length ∧ p.readOpen = false := by
  by_cases hfull : p.maxSize ≤ p.data.length
  · rw [pipeWrite_of_full hs hn hfull]
    cases p.readOpen <;> cases p.writeNonblock <;> simp [hfull, epipe, eagain]
  · -- with room, the write returns a count or `-EFAULT`
    rw [pipeWrite_of_room hs hn (by omega)]
    refine iff_of_false ?_ fun h => hfull h.1
    rintro ⟨p', he⟩
    split_ifs at he
    · injection he with hrv
      simp [efault, epipe] at hrv
    · injection he with hrv
      simp only [epipe] at hrv
      omega

end bh

/-! ## Runs -/

/-- A pipe together with the bytes that the writes took and the reads returned so far. -/
structure World (α : Type) where
  pipe : Pipe α
  written : List α
  read : List α

/-- A step of one of the processes that hold an end: a run of a read or a write bottom half,
    or a close. A bottom half that blocks leaves the pipe as it was. -/
inductive Action (α : Type)
  | read (length flags : ℕ) (fault : Bool)
  | write (src : List α) (flags : ℕ) (fault : Bool)
  | close (e : End)

/-- The step of an action. A call on an end needs its `fd`, so it is refused once the end is
    closed. -/
def step (w : World α) : Action α → Option (World α)
  | .read length flags fault =>
    if w.pipe.readOpen then
      match pipeRead w.pipe length flags fault with
      | .block => some w
      | .done _ bytes p => some ⟨p, w.written, w.read ++ bytes⟩
    else none
  | .write src flags fault =>
    if w.pipe.writeOpen then
      match pipeWrite w.pipe src flags fault with
      | .block => some w
      | .done _ bytes p => some ⟨p, w.written ++ bytes, w.read⟩
    else none
  | .close .read => if w.pipe.readOpen then some { w with pipe := pipeDeallocEnd w.pipe .read }
    else none
  | .close .write => if w.pipe.writeOpen then some { w with pipe := pipeDeallocEnd w.pipe .write }
    else none

/-- What every reachable world keeps: the bytes read and then the bytes in the buffer are the
    bytes written, and the buffer fits in `max_size`. -/
structure Inv (w : World α) : Prop where
  fifo : w.read ++ w.pipe.data = w.written
  bound : w.pipe.data.length ≤ w.pipe.maxSize

theorem step_inv {w w' : World α} {a : Action α} (h : step w a = some w') (hi : Inv w) :
    Inv w' := by
  obtain ⟨hfifo, hbound⟩ := hi
  cases a with
  | read length flags fault =>
    simp only [step] at h
    split_ifs at h
    split at h
    · cases h
      exact ⟨hfifo, hbound⟩
    · next bytes p he =>
      cases h
      obtain ⟨hd, hp⟩ := pipeRead_done he
      have hmax : p.maxSize = w.pipe.maxSize := by rw [hp]
      have hlen := congrArg List.length hd
      simp only [List.length_append] at hlen
      refine ⟨by rw [← hfifo, hd, List.append_assoc], ?_⟩
      show p.data.length ≤ p.maxSize
      omega
  | write src flags fault =>
    simp only [step] at h
    split_ifs at h
    split at h
    · cases h
      exact ⟨hfifo, hbound⟩
    · next bytes p he =>
      cases h
      obtain ⟨hd, hle, hp⟩ := pipeWrite_done he
      have hmax : p.maxSize = w.pipe.maxSize := by rw [hp]
      refine ⟨by rw [hd, ← List.append_assoc, hfifo], ?_⟩
      show p.data.length ≤ p.maxSize
      simp only [hd, List.length_append]
      omega
  | close e =>
    cases e <;> simp only [step] at h <;> split_ifs at h <;> cases h <;>
      exact ⟨hfifo, hbound⟩

def World.init (p : Pipe α) : World α := ⟨p, [], []⟩

theorem inv_doPipe2 {flags : ℕ} {p : Pipe α} (h : doPipe2 flags = .ok p) : Inv (World.init p) := by
  unfold doPipe2 at h
  split_ifs at h
  cases h
  exact ⟨rfl, by simp [World.init]⟩

/-- For every interleaving of reads, writes and closes on a pipe from `do_pipe2`, the bytes
    returned by the reads are a prefix of the bytes taken by the writes, and the buffer fits
    in `max_size`. -/
theorem pipe_reachable_inv {flags : ℕ} {p : Pipe α} (hp : doPipe2 flags = .ok p) {w : World α}
    (h : Reachable step (fun _ _ => True) (World.init p) w) :
    w.read <+: w.written ∧ w.pipe.data.length ≤ w.pipe.maxSize := by
  have hi : Inv w := h.invariant Inv (inv_doPipe2 hp) fun _ _ _ hi _ hs => step_inv hs hi
  exact ⟨⟨w.pipe.data, hi.fifo⟩, hi.bound⟩

/-- Three bytes written, two read, the write end closed, the last byte read and then the end of
    file. -/
theorem pipe_reachable_inv_eof :
    ∃ p w, doPipe2 0 = .ok p ∧
      run step (World.init p) [.write [1, 2, 3] 0 false, .read 2 0 false, .close .write,
        .read 5 0 false, .read 5 0 false] = some w ∧
      w.read <+: w.written ∧ w.pipe.data.length ≤ w.pipe.maxSize := by
  have hp : doPipe2 0 = .ok (⟨[], defaultPipeMaxSize, true, true, false, false⟩ : Pipe ℕ) := by
    decide
  obtain ⟨w, hw⟩ : ∃ w, run step
      (World.init (⟨[], defaultPipeMaxSize, true, true, false, false⟩ : Pipe ℕ))
      [.write [1, 2, 3] 0 false, .read 2 0 false, .close .write, .read 5 0 false,
        .read 5 0 false] = some w := ⟨_, rfl⟩
  exact ⟨_, w, hp, hw, pipe_reachable_inv hp (Reachable.of_run hw)⟩

/-! ## The write end does not see a closed read end -/

/-- On a pipe from `do_pipe2(fds, 0)`: once the read end is closed, a write of one byte is
    taken and returns 1, not `-EPIPE`; and with both ends open a blocking write of one byte
    more than `max_size` completes with `max_size` bytes taken. -/
theorem pipe_write_short :
    ∃ p : Pipe ℕ, doPipe2 0 = .ok p ∧
      pipeWrite (pipeDeallocEnd p .read) [7] 0 false =
        .done 1 [7] { pipeDeallocEnd p .read with data := [7] } ∧
      ∃ bytes p', pipeWrite p (List.replicate (defaultPipeMaxSize + 1) 0) 0 false =
        .done (defaultPipeMaxSize : ℕ) bytes p' := by
  refine ⟨⟨[], defaultPipeMaxSize, true, true, false, false⟩, by decide, by decide, ?_⟩
  have hroom : ([] : List ℕ).length < defaultPipeMaxSize := by decide
  rw [pipeWrite_of_room (by simp) (by decide) hroom]
  simp

end Nanos.Pipes
