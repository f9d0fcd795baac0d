import Nanos.TupleCodec
import Nanos.Memory
import Nanos.Utf8
import Nanos.Rangemap
import Nanos.Transition

set_option autoImplicit false

/-!
# `fs/tlog.c`: the metadata log of a tfs filesystem

The log is a chain of extensions, ranges of sectors. Each starts with a header (the magic, the
version, its length and, on the first, the uuid and label) and holds frames: an entry is cut into
a `TUPLE_AVAILABLE` segment and `TUPLE_EXTENDED` ones, a full extension ends with a
`LOG_EXTENSION_LINK`, and the written part ends with `END_OF_LOG`. The writer stages entries in
`tl->tuple_staging` and on a flush copies them as segments into the current extension; the reader
follows the frames and decodes the entries.

Storage is a function from byte addresses to bytes whose reads and writes complete at once, as in
`mkfs`. The allocator answers from a list and the value decoder is a parameter. Compaction, the
flush timer and the completion handlers are not modelled.
-/

namespace Nanos.Tlog
open Memory Rangemap

/-! ## Frames, sizes and the geometry -/

def endOfLog : ℕ := 1
def tupleAvailable : ℕ := 2
def tupleExtended : ℕ := 3
def endOfSegment : ℕ := 4
def logExtensionLink : ℕ := 5

def maxVarintSize : ℕ := 10

def tfsMagic : List ℕ := [0x4e, 0x56, 0x4d, 0x54, 0x46, 0x53]

def tfsExtensionLinkBytes : ℕ := 1 + 2 * maxVarintSize
def tupleAvailableHeaderSize : ℕ := 1 + 2 * maxVarintSize
def tupleAvailableMinSize : ℕ := tupleAvailableHeaderSize + 32
def tfsLogMaxTupleStagingBytes : ℕ := 32 * 2 ^ 20
def tfsVersion : ℕ := 5
def uuidLen : ℕ := 16
/-- `VOLUME_LABEL_MAX_LEN`, with its null terminator. -/
def volumeLabelMaxLen : ℕ := 32

/-- The sizes the log depends on: `fs->fs.blocksize_order`, and `TFS_LOG_INITIAL_SIZE` and
    `TFS_LOG_DEFAULT_EXTENSION_SIZE` of `config.h`, in bytes. -/
structure Geometry where
  blocksizeOrder : ℕ
  initialSize : ℕ
  extensionSize : ℕ
deriving DecidableEq, Repr

/-- Blocks of `SECTOR_SIZE` bytes, an initial extension of one sector and extensions of 512 KB. -/
def defaultGeometry : Geometry := ⟨9, 512, 512 * 1024⟩

def Geometry.blocksize (g : Geometry) : ℕ := 2 ^ g.blocksizeOrder

def Geometry.bytesFromSectors (g : Geometry) (sectors : ℕ) : ℕ := sectors <<< g.blocksizeOrder

def Geometry.logBlocks (g : Geometry) : ℕ := g.extensionSize >>> g.blocksizeOrder

/-- `pad(x, s)` for a power of two `s`: clearing the low bits of `x - 1` rounds it down to a
    multiple of `s`, and adding `s` rounds `x` up to one. -/
def pad (x s : ℕ) : ℕ := (x - 1) / s * s + s

def irangel (start length : ℕ) : Range := ⟨start, start + length⟩

/-! ## Buffers -/

/-- A `struct buffer` over a block of memory: its cells, `start`, `end` and `length`, the
    capacity. -/
structure Buffer where
  mem : ℕ → ℕ
  start : ℕ
  stop : ℕ
  capacity : ℕ

/-- `init_buffer(b, s, true, 0, contents)` over memory just allocated, whose cells are taken
    as 0. -/
def initBuffer (s : ℕ) : Buffer := ⟨fun _ => 0, 0, 0, s⟩

/-- `buffer_write(b, source, length)` of the bytes `src`, which the callers assert. The staging
    buffer of an extension wraps memory it may not grow, so writing past its capacity is a
    failed assertion. -/
def bufferWrite (b : Buffer) (src : List ℕ) : Option Buffer :=
  if b.start ≤ b.stop ∧ b.stop + src.length ≤ b.capacity then
    some { b with mem := write b.mem b.stop src, stop := b.stop + src.length }
  else none

def pushU8 (b : Buffer) (x : ℕ) : Option Buffer := bufferWrite b [x]

/-- `push_varint(b, x)`: the bytes `push_u8` appends one by one. -/
def pushVarint (b : Buffer) (x : ℕ) : Option Buffer :=
  bufferWrite b (TupleEncoding.pushVarint [] x)

/-! ## Extensions and the filesystem -/

/-- `struct log_ext`: its staging buffer, whether the reader has checked its header
    (`ext->open`), whether it holds the old encoding, and its sectors. -/
structure LogExt where
  staging : Buffer
  isOpen : Bool
  oldEncoding : Bool
  sectors : Range

def logSize (g : Geometry) (ext : LogExt) : ℕ := g.bytesFromSectors (rangeSpan ext.sectors)

/-- `open_log_extension(tl, sectors)` whose allocations succeed: a staging buffer of the
    extension's size. Adding the sectors to `tl->extensions`, which only `log_switch_complete`
    reads, is left out. -/
def openLogExtension (g : Geometry) (sectors : Range) : LogExt :=
  ⟨initBuffer (g.bytesFromSectors (rangeSpan sectors)), false, false, sectors⟩

@[simp] theorem openLogExtension_sectors (g : Geometry) (sectors : Range) :
    (openLogExtension g sectors).sectors = sectors := rfl

@[simp] theorem openLogExtension_isOpen (g : Geometry) (sectors : Range) :
    (openLogExtension g sectors).isOpen = false := rfl

@[simp] theorem logSize_openLogExtension (g : Geometry) (sectors : Range) :
    logSize g (openLogExtension g sectors) = g.bytesFromSectors (rangeSpan sectors) := rfl

/-- The fields of the filesystem the log reads: `fs->uuid`, of `UUID_LEN` bytes, and the bytes of
    `fs->label` before its terminator. -/
structure Fs where
  uuid : List ℕ
  uuid_length : uuid.length = uuidLen
  label : List ℕ

/-- What `create_filesystem` copies of the label it is given: at most `VOLUME_LABEL_MAX_LEN - 1`
    bytes, so that the terminator fits. -/
def createFilesystemLabel (label : List ℕ) : List ℕ :=
  if volumeLabelMaxLen ≤ label.length then label.take (volumeLabelMaxLen - 1) else label

/-- `sstring_from_cstring(fs->label, VOLUME_LABEL_MAX_LEN)`: the bytes before the first NUL. -/
def labelString (label : List ℕ) : List ℕ := (label.take volumeLabelMaxLen).takeWhile (· ≠ 0)

def logExtensionInit (fs : Fs) (ext : LogExt) : Option LogExt :=
  if ext.isOpen then none else do
  let b ← bufferWrite ext.staging tfsMagic
  let b ← pushVarint b tfsVersion
  let b ← pushVarint b (rangeSpan ext.sectors)
  let b ← if ext.sectors.start = 0 then do
      let b ← bufferWrite b fs.uuid
      let b ← bufferWrite b (labelString fs.label)
      -- the label string's terminator
      pushU8 b 0
    else pure b
  pure { ext with staging := b }

/-- `flush_log_extension(ext, release, complete)` with a storage write that completes at once:
    `END_OF_LOG` is pushed and the blocks from `b->start` to the padded end written; unless the
    extension is released, the next write takes `END_OF_LOG` back and the next storage write
    starts at the block it is in. -/
def flushLogExtension (g : Geometry) (disk : ℕ → ℕ) (ext : LogExt) (release : Bool) :
    Option ((ℕ → ℕ) × LogExt) := do
  let b ← pushU8 ext.staging endOfLog
  let writeBytes := pad (b.stop - b.start) g.blocksize
  if b.start % g.blocksize = 0 ∧ writeBytes ≤ logSize g ext then
    -- `log_storage_op`: the blocks of `[b->start, b->start + write_bytes)` of the extension
    let disk := write disk (g.bytesFromSectors ext.sectors.start + b.start)
      (read b.mem b.start writeBytes)
    let b := if release then b
      else { b with stop := b.stop - 1, start := (b.stop - 1) / g.blocksize * g.blocksize }
    pure (disk, { ext with staging := b })
  else none

/-! ## Storage for extensions -/

/-- The storage requests of the log: the answers `filesystem_allocate_storage` gives, in order
    (`none` for `INVALID_PHYSICAL`, which is also the answer once they run out), and
    `fs->next_extend_log_offset` and `fs->next_new_log_offset`. -/
structure Storage where
  answers : List (Option ℕ)
  nextExtendLogOffset : Option ℕ
  nextNewLogOffset : Option ℕ

/-- Which of the two offsets `filesystem_reserve_log_space` is given. -/
inductive NextOffset where
  | extend
  | new
deriving DecidableEq, Repr

def Storage.next (s : Storage) : NextOffset → Option ℕ
  | .extend => s.nextExtendLogOffset
  | .new => s.nextNewLogOffset

def Storage.setNext (s : Storage) : NextOffset → Option ℕ → Storage
  | .extend, a => { s with nextExtendLogOffset := a }
  | .new, a => { s with nextNewLogOffset := a }

def allocateStorage (s : Storage) : Option ℕ × Storage :=
  match s.answers with
  | a :: rest => (a, { s with answers := rest })
  | [] => (none, s)

/-- `filesystem_reserve_log_space(fs, next_offset, offset, size)`: the offset reserved, and a
    next one allocated, when `offset` is not null (`takeOffset`); `none` for false. -/
def reserveLogSpace (s : Storage) (which : NextOffset) (takeOffset : Bool) :
    Storage × Option ℕ :=
  let s := if s.next which = none then (allocateStorage s).2.setNext which (allocateStorage s).1
    else s
  match s.next which with
  | none => (s, none)
  | some n =>
    if takeOffset then ((allocateStorage s).2.setNext which (allocateStorage s).1, some n)
    else (s, some n)

/-! ## The writer -/

inductive TlogState where
  | init
  | linked
  | compacting
  | failed
deriving DecidableEq, Repr

/-- The fields of `struct log` the writer uses: the current extension, the bytes of
    `tl->tuple_staging`, `tl->encoding_lengths`, `tl->dirty` and `tl->state`. -/
structure Log where
  current : LogExt
  tupleStaging : List ℕ
  encodingLengths : List ℕ
  dirty : Bool
  state : TlogState

/-- The log with the storage it writes and the storage requests. `entries` is not a field of the
    source: it records the entries the log took, for the statements. -/
structure World where
  log : Log
  disk : ℕ → ℕ
  storage : Storage
  entries : List (List ℕ)

section Writer

variable (g : Geometry) (fs : Fs)

/-- `log_extend(tl, TFS_LOG_DEFAULT_EXTENSION_SIZE, sh)` with storage that completes at once: a new
    extension is reserved and opened, its header written and flushed, and the flush's completion,
    `log_extend_link`, ends the old extension with a link to the new one and flushes it. The flag
    is false when the reservation fails. -/
def logExtend (w : World) : Option (World × Bool) :=
  match reserveLogSpace w.storage .extend true with
  | (storage, none) => some ({ w with storage }, false)
  | (storage, some offset) => do
    let r := irangel offset g.logBlocks
    let newExt ← logExtensionInit fs (openLogExtension g r)
    let oldExt := w.log.current
    -- the new extension's write completes within its flush, so the link is written before
    -- `flush_log_extension` takes the new extension's `END_OF_LOG` back; the two touch different
    -- extensions
    let (disk, newExt) ← flushLogExtension g w.disk newExt false
    let b ← pushU8 oldExt.staging logExtensionLink
    let b ← pushVarint b r.start
    let b ← pushVarint b (rangeSpan r)
    let (disk, _) ← flushLogExtension g disk { oldExt with staging := b } true
    pure ({ w with disk, storage, log := { w.log with current := newExt } }, true)

/-- The room an extension needs left before a segment goes in: a link and a segment of the least
    size. -/
def segmentRoom : ℕ := tfsExtensionLinkBytes + tupleAvailableMinSize

/-- One round of the `do … while (remaining > 0)` loop of `log_write_internal`, in an extension
    with room: a segment of at most what is left of the entry, as large as the room allows after
    a link and a segment header. -/
def putSegment (w : World) (remaining written : ℕ) : Option (World × ℕ) := do
  let ext := w.log.current
  let avail := logSize g ext - (ext.staging.stop + tfsExtensionLinkBytes + tupleAvailableHeaderSize)
  let length := min avail remaining
  let b ← if written = 0 then do
      let b ← pushU8 ext.staging tupleAvailable
      pushVarint b remaining
    else pushU8 ext.staging tupleExtended
  let b ← pushVarint b length
  -- `buffer_consume(tl->tuple_staging, length)` asserts that the bytes are there
  if length ≤ w.log.tupleStaging.length then
    let b ← bufferWrite b (w.log.tupleStaging.take length)
    let log := { w.log with
      current := { ext with staging := b }
      tupleStaging := w.log.tupleStaging.drop length }
    pure ({ w with log }, length)
  else none

/-- The `do … while (remaining > 0)` loop of `log_write_internal` for one entry, with fuel: each
    round extends the log when the room left in the current extension is below `segmentRoom` (or
    the extension holds the old encoding), then puts a segment. The flag is false when an
    extension fails, on which `log_write_internal` returns false. -/
def writeSegments : ℕ → World → ℕ → ℕ → Option (World × Bool)
  | 0, _, _, _ => none
  | fuel + 1, w, remaining, written =>
    if w.log.tupleStaging = [] then none
    else
      let ext := w.log.current
      let extended := if logSize g ext ≤ ext.staging.stop + segmentRoom ∨ ext.oldEncoding = true
        then logExtend g fs w else some (w, true)
      match extended with
      | none => none
      | some (w, false) => some (w, false)
      | some (w, true) =>
        if w.log.current.staging.stop + segmentRoom < logSize g w.log.current then
          match putSegment g w remaining written with
          | none => none
          | some (w, length) =>
            if remaining - length > 0 then writeSegments fuel w (remaining - length) (written + length)
            else some (w, true)
        else none

/-- The loop of `log_write_internal` over `tl->encoding_lengths`; each entry's loop gets as much
    fuel as the entry has bytes. -/
def writeEntries (w : World) : List ℕ → Option (World × Bool)
  | [] => some (w, true)
  | remaining :: rest =>
    if remaining = 0 then none
    else
      match writeSegments g fs remaining w remaining 0 with
      | none => none
      | some (w, false) => some (w, false)
      | some (w, true) => writeEntries w rest

/-- `log_write_internal(tl, m)`: the lengths are cleared when every entry went out. -/
def logWriteInternal (w : World) : Option (World × Bool) :=
  match writeEntries g fs w w.log.encodingLengths with
  | none => none
  | some (w, ok) =>
    some (if ok then { w with log := { w.log with encodingLengths := [] } } else w, ok)

/-- `log_flush(tl, completion)` with storage that completes at once, so that `tl->flushing` is
    false between calls and `log_flush_complete` runs before it returns. The compaction branch
    (tlog.c:550-575) is left out: it starts only once `tl->obsolete_entries` counts some, and
    `log_write` of new tuples counts none. -/
def logFlush (w : World) : Option World :=
  if w.log.dirty = false ∧ w.log.state ≠ .compacting then some w
  else if w.log.state = .compacting then some w
  else
    match logWriteInternal g fs w with
    | none => none
    | some (w, ok) =>
      -- a failure is recorded, and the current extension flushed all the same
      let w := if ok then w else { w with log := { w.log with state := .failed } }
      (flushLogExtension g w.disk w.log.current false).map fun (disk, current) =>
        { w with disk, log := { w.log with current, dirty := false } }

/-- `log_set_dirty(tl)` of `mkfs`: the log flushes as soon as the staged entries would fill the
    current extension. -/
def logSetDirty (w : World) : Option World :=
  let w := { w with log := { w.log with dirty := true } }
  if logSize g w.log.current ≤ w.log.tupleStaging.length then logFlush g fs w else some w

/-- `log_write(tl, t)` once `encode_tuple` has appended the bytes `entry` to
    `tl->tuple_staging`. The flag is what it returns. -/
def logWrite (w : World) (entry : List ℕ) : Option (World × Bool) :=
  if w.log.state = .failed ∨ tfsLogMaxTupleStagingBytes ≤ w.log.tupleStaging.length then
    some (w, false)
  else
    let log := { w.log with
      tupleStaging := w.log.tupleStaging ++ entry
      encodingLengths := w.log.encodingLengths ++ [entry.length] }
    let w := { w with log, entries := w.entries ++ [entry] }
    (logSetDirty g fs w).map fun w => (w, w.log.state ≠ .failed)

/-- The extension `log_new` opens: the first sectors, `TFS_LOG_INITIAL_SIZE` bytes. -/
def initialExtension : LogExt :=
  openLogExtension g (irangel 0 (g.initialSize >>> g.blocksizeOrder))

/-- `log_create(h, fs, true, sh)`, the log of a new filesystem: the first extension gets its
    header and a link to a new extension, which gets its header, and is written; the new one is
    written at the first flush. `some none` is the failure to allocate storage. Reserving the
    first sectors in the allocation map is left to the environment. -/
def logCreate (disk : ℕ → ℕ) (storage : Storage) : Option (Option World) :=
  match reserveLogSpace storage .new false with
  | (_, none) => some none
  | (storage, some _) =>
    match reserveLogSpace storage .extend false with
    | (_, none) => some none
    | (storage, some _) =>
      -- `log_ext_new(tl)`: its reservation takes the offset just reserved, so it succeeds
      match reserveLogSpace storage .new true with
      | (_, none) => none
      | (storage, some offset) => do
        let initExt ← logExtensionInit fs (initialExtension g)
        let newExt ← logExtensionInit fs (openLogExtension g (irangel offset g.logBlocks))
        -- `log_extend_link(init_ext, new_ext->sectors, sh)` applied at once
        let r := newExt.sectors
        let b ← pushU8 initExt.staging logExtensionLink
        let b ← pushVarint b r.start
        let b ← pushVarint b (rangeSpan r)
        let (disk, _) ← flushLogExtension g disk { initExt with staging := b } true
        pure (some ⟨⟨newExt, [], [], false, .linked⟩, disk, storage, []⟩)

/-- A call on the log: `log_write` of an encoded entry, or a flush (`log_flush` called, or its
    timer expired). -/
inductive Action where
  | write (entry : List ℕ)
  | flush

def step (w : World) : Action → Option World
  | .write entry => (logWrite g fs w entry).map Prod.fst
  | .flush => logFlush g fs w

end Writer

/-! ## The reader -/

/-- The errors of the reader: the `"result"` text of the status it applies. -/
inductive LogError where
  /-- `"tfs magic mismatch"`. -/
  | magicMismatch
  /-- `"tfs version mismatch (read %ld, build %ld)"`. -/
  | versionMismatch (version : ℕ)
  /-- `"invalid label"`. -/
  | invalidLabel
  /-- `"zero-length extension"`. -/
  | zeroLengthExtension
  /-- `"TUPLE_AVAILABLE read while already parsing tuple (%ld remaining)"`. -/
  | availableWhileParsing (remain : ℕ)
  /-- `"TUPLE_AVAILABLE read with invalid or short available length (%ld, tuple_length: %ld,
      buffer length: %ld)"`. -/
  | invalidAvailableLength (length tupleLength bufferLength : ℕ)
  /-- `"TUPLE_EXTENDED read of length %ld, exceeding remainder %ld"`. -/
  | extendedExceedsRemainder (length remain : ℕ)
  /-- `"unknown frame identifier 0x%x"`. -/
  | unknownFrame (frame : ℕ)
deriving DecidableEq, Repr

/-- `read_cstring(b, dest, maxlen)`: characters by the length their first byte announces, up to
    and with the one whose first byte is NUL, at most `maxlen` bytes in all; the bytes read and
    the rest, `none` for false. The fuel bounds the rounds, each of which reads a byte or more. -/
def readCstring (maxlen : ℕ) : ℕ → ℕ → List ℕ → Option (List ℕ × List ℕ)
  | 0, _, _ => none
  | fuel + 1, count, b =>
    match b with
    | [] => none
    | c :: _ =>
      let len := Utf8.utf8Length c
      if maxlen - count < len ∨ b.length < len then none
      else if c = 0 then some (b.take len, b.drop len)
      else (readCstring maxlen fuel (count + len) (b.drop len)).map
        fun (s, rest) => (b.take len ++ s, rest)

/-- What `log_hdr_parse` reads: whether the extension has the old encoding, the length it
    gives, the uuid and label of the first extension, and the bytes after the header. -/
structure Header where
  oldEncoding : Bool
  length : ℕ
  uuid : Option (List ℕ)
  label : Option (List ℕ)
  rest : List ℕ

/-- `log_hdr_parse(ext, b, first_ext, &length, uuid, label)`; `none` is a failed assertion of
    `pop_u8`. A uuid that does not fit in the buffer is not read. -/
def logHdrParse (firstExt : Bool) (b : List ℕ) : Option (Except LogError Header) :=
  if b.take tfsMagic.length ≠ tfsMagic then some (.error .magicMismatch)
  else
    match TupleEncoding.popVarint (b.drop tfsMagic.length) with
    | none => none
    | some (version, b) =>
      if version ≠ 4 ∧ version ≠ tfsVersion then some (.error (.versionMismatch version))
      else
        match TupleEncoding.popVarint b with
        | none => none
        | some (length, b) =>
          if firstExt then
            let (uuid, b) := if uuidLen ≤ b.length then (some (b.take uuidLen), b.drop uuidLen)
              else (none, b)
            match readCstring volumeLabelMaxLen (volumeLabelMaxLen + 1) 0 b with
            | none => some (.error .invalidLabel)
            | some (label, b) => some (.ok ⟨version = 4, length, uuid, some label, b⟩)
          else some (.ok ⟨version = 4, length, none, none, b⟩)

/-- The fields of `struct log` the reader changes: what the decoder keeps (the dictionary and the
    entry counts), `tl->tuple_staging` and `tl->tuple_bytes_remain`. -/
structure Reader (D : Type) where
  dec : D
  tupleStaging : List ℕ
  tupleBytesRemain : ℕ

/-- Where the frame loop of `log_read_complete` stops. -/
inductive FrameStop (D : Type) where
  /-- At `END_OF_LOG`, with the bytes after it. -/
  | endOfLog (r : Reader D) (rest : List ℕ)
  /-- At a `LOG_EXTENSION_LINK` to `irangel(sector, length)`. -/
  | link (r : Reader D) (sector length : ℕ)
  /-- At an error, which `out_apply_status` applies. -/
  | error (e : LogError)

section Reader

variable {D : Type} (decode : Bool → D → List ℕ → Option (D × List ℕ))

/-- The frame loop of `log_read_complete` over the bytes of an extension after its header, with
    `decode` for `log_parse_tuple`: the decoder's state after a value and the bytes it left. The
    fuel bounds the frames, each of which takes a byte or more; `none` is a failed assertion of
    the buffer or a value the decoder refuses. -/
def readFrames (old : Bool) : ℕ → Reader D → List ℕ → Option (FrameStop D)
  | 0, _, _ => none
  | fuel + 1, r, b =>
    match b with
    | [] => none
    | frame :: b =>
      if frame = endOfLog then some (.endOfLog r b)
      else if frame = endOfSegment then readFrames old fuel r b
      else if frame = logExtensionLink then
        match TupleEncoding.popVarint b with
        | none => none
        | some (sector, b) =>
          match TupleEncoding.popVarint b with
          | none => none
          | some (length, _) =>
            if length = 0 then some (.error .zeroLengthExtension) else some (.link r sector length)
      else if frame = tupleAvailable then
        if r.tupleBytesRemain > 0 then some (.error (.availableWhileParsing r.tupleBytesRemain))
        else
          match TupleEncoding.popVarint b with
          | none => none
          | some (tupleLength, b) =>
            match TupleEncoding.popVarint b with
            | none => none
            | some (length, b) =>
              if tupleLength < length ∨ b.length < length + 1 then
                some (.error (.invalidAvailableLength length tupleLength b.length))
              else if length = tupleLength then
                -- read at once from the extension's buffer
                match decode old r.dec b with
                | none => none
                | some (d, b) => readFrames old fuel { r with dec := d } b
              else
                -- an entry in installments: `tuple_staging` is cleared and takes the segment
                readFrames old fuel ⟨r.dec, b.take length, tupleLength - length⟩ (b.drop length)
      else if frame = tupleExtended then
        match TupleEncoding.popVarint b with
        | none => none
        | some (length, b) =>
          if r.tupleBytesRemain < length then
            some (.error (.extendedExceedsRemainder length r.tupleBytesRemain))
          else if b.length < length then none
          else
            let staging := r.tupleStaging ++ b.take length
            if r.tupleBytesRemain - length = 0 then
              match decode old r.dec staging with
              | none => none
              | some (d, _) => readFrames old fuel ⟨d, [], 0⟩ (b.drop length)
            else readFrames old fuel ⟨r.dec, staging, r.tupleBytesRemain - length⟩ (b.drop length)
      else some (.error (.unknownFrame frame))

/-- What `log_read` leaves: the reader's state, the uuid and label of the first extension, and
    the extension the writer goes on in, whose staging buffer holds the bytes read with the
    `END_OF_LOG` turned into `END_OF_SEGMENT`. -/
structure ReadResult (D : Type) where
  reader : Reader D
  uuid : Option (List ℕ)
  label : Option (List ℕ)
  current : LogExt

/-- `log_read(tl, sh)` from the extension `ext`, with `log_read_complete` run on each
    extension's bytes: the header is checked unless the extension is open, the frames followed,
    and a link opens the next extension and reads it. The fuel bounds the extensions read. This
    is the reader of the `TLOG_READ_ONLY` build: the other builds also reserve the sectors of
    each linked extension in the allocation map (tlog.c:764, :888), which is left out. -/
def logRead (g : Geometry) (disk : ℕ → ℕ) :
    ℕ → LogExt → Reader D → Option (List ℕ) → Option (List ℕ) →
      Option (Except LogError (ReadResult D))
  | 0, _, _, _, _ => none
  | fuel + 1, ext, r, uuid, label =>
    let base := g.bytesFromSectors ext.sectors.start
    let bytes := read disk base (logSize g ext)
    let hdr : Option (Except LogError Header) :=
      if ext.isOpen then some (.ok ⟨ext.oldEncoding, 0, none, none, bytes⟩)
      else logHdrParse (ext.sectors.start = 0) bytes
    match hdr with
    | none => none
    | some (.error e) => some (.error e)
    | some (.ok h) =>
      let uuid := if ext.isOpen then uuid else h.uuid.or uuid
      let label := if ext.isOpen then label else h.label.or label
      match readFrames decode h.oldEncoding (h.rest.length + 1) r h.rest with
      | none => none
      | some (.error e) => some (.error e)
      | some (.link r sector length) =>
        logRead g disk fuel (openLogExtension g (irangel sector length)) r uuid label
      | some (.endOfLog r rest) =>
        -- `b->start` is just past `END_OF_LOG`, which becomes `END_OF_SEGMENT`; the writer goes
        -- on from there, and writes the extension from its start at the next flush
        let pos := bytes.length - rest.length
        let staging : Buffer :=
          ⟨Function.update (fun i => disk (base + i)) (pos - 1) endOfSegment, 0, pos, logSize g ext⟩
        some (.ok ⟨{ r with tupleStaging := [] }, uuid, label,
          { ext with staging, isOpen := true, oldEncoding := h.oldEncoding }⟩)

end Reader

/-- `log_create(h, fs, false, sh)` of a filesystem on `disk`: `log_read` from the first
    extension. -/
def logReadCreate {D : Type} (decode : Bool → D → List ℕ → Option (D × List ℕ)) (g : Geometry)
    (disk : ℕ → ℕ) (fuel : ℕ) (d₀ : D) : Option (Except LogError (ReadResult D)) :=
  logRead decode g disk fuel (initialExtension g) ⟨d₀, [], 0⟩ none none

/-- `log_parse_tuple`'s call `decode_value(tl->h, tl->dictionary, b, &tl->total_entries,
    &tl->obsolete_entries, old_encoding)`, on a buffer of bytes, with as much fuel as it has
    bytes: each nesting takes a header byte. -/
def tupleDecode (old : Bool) (d : TupleCodec.Decoder) (b : List ℕ) :
    Option (TupleCodec.Decoder × List ℕ) :=
  (TupleCodec.decodeValue old (b.length + 1) { d with src := b }).map
    fun (_, d') => ({ d' with src := [] }, d'.src)

end Nanos.Tlog
