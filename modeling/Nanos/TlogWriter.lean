import Mathlib.Data.List.Perm.Basic
import Nanos.TlogFrames

set_option autoImplicit false

/-!
# What the log writer leaves in an extension and on disk

The staging buffer of an extension holds the bytes the writer put, from the extension's base;
`Staged` says so, and that the disk has them up to the buffer's `start`, which is at a block.
A push keeps this (`Staged.push`), and `flush_log_extension` pushes `END_OF_LOG` and writes the
blocks from `start` on, so that the disk then has all the bytes and `END_OF_LOG` after them, and
nothing outside the extension changed (`Staged.flush`). The header of a new extension is
`hdrBytes` (`Staged.init`). The storage the writer reserves extensions in is a list of offsets
still to give out (`pending`), which a reservation permutes, or takes one of
(`reserveLogSpace_pending`).
-/

namespace Nanos.Tlog
open Memory Rangemap

/-! ## Blocks -/

theorem blocksize_pos (g : Geometry) : 0 < g.blocksize := Nat.two_pow_pos _

theorem bytesFromSectors_eq (g : Geometry) (n : ℕ) : g.bytesFromSectors n = n * g.blocksize :=
  Nat.shiftLeft_eq n _

theorem bytesFromSectors_add (g : Geometry) (a b : ℕ) :
    g.bytesFromSectors (a + b) = g.bytesFromSectors a + g.bytesFromSectors b := by
  simp only [bytesFromSectors_eq, Nat.add_mul]

theorem le_pad {s : ℕ} (hs : 0 < s) (x : ℕ) : x ≤ pad x s := by
  have : x - 1 < (x - 1) / s * s + s := Nat.lt_div_mul_add hs
  unfold pad
  omega

theorem pad_le {s x m : ℕ} (hx : 0 < x) (h : x ≤ m * s) : pad x s ≤ m * s := by
  have hq : (x - 1) / s < m := Nat.div_lt_of_lt_mul (by rw [Nat.mul_comm]; omega)
  calc pad x s = ((x - 1) / s + 1) * s := by rw [pad, Nat.succ_mul]
    _ ≤ m * s := Nat.mul_le_mul_right s hq

/-- Ranges of sectors that do not overlap. -/
def Apart (a b : Range) : Prop := a.end ≤ b.start ∨ b.end ≤ a.start

theorem Apart.symm {a b : Range} (h : Apart a b) : Apart b a := Or.symm h

/-- The disk changed only in the bytes of the extension of the sectors `r`. -/
def Frame (g : Geometry) (r : Range) (disk disk' : ℕ → ℕ) : Prop :=
  ∀ i, i < g.bytesFromSectors r.start ∨
    g.bytesFromSectors r.start + g.bytesFromSectors (rangeSpan r) ≤ i → disk' i = disk i

theorem read_of_frame {g : Geometry} {r r' : Range} {disk disk' : ℕ → ℕ}
    (hf : Frame g r disk disk') (hr : r.start ≤ r.end) (hr' : r'.start ≤ r'.end)
    (hap : Apart r r') {n : ℕ} (hn : n ≤ g.bytesFromSectors (rangeSpan r')) :
    read disk' (g.bytesFromSectors r'.start) n = read disk (g.bytesFromSectors r'.start) n := by
  have he : ∀ q : Range, q.start ≤ q.end →
      g.bytesFromSectors q.start + g.bytesFromSectors (rangeSpan q) = g.bytesFromSectors q.end := by
    intro q hq
    rw [← bytesFromSectors_add, rangeSpan, Nat.add_sub_cancel' hq]
  have hmono : ∀ a b : ℕ, a ≤ b → g.bytesFromSectors a ≤ g.bytesFromSectors b := by
    intro a b hab
    simp only [bytesFromSectors_eq]
    exact Nat.mul_le_mul_right _ hab
  have hend := he r' hr'
  apply read_congr
  intro i hi hi'
  apply hf
  rw [he r hr]
  rcases hap with h | h
  · exact Or.inr ((hmono _ _ h).trans hi)
  · exact Or.inl (lt_of_lt_of_le (by omega) (hmono _ _ h))

theorem OnDisk.of_frame {g : Geometry} {fs : Fs} {r r' : Range} {disk disk' : ℕ → ℕ}
    {segs : List Seg} {tail : List ℕ} (h : OnDisk g fs disk r' segs tail)
    (hf : Frame g r disk disk') (hr : r.start ≤ r.end) (hr' : r'.start ≤ r'.end)
    (hap : Apart r r') : OnDisk g fs disk' r' segs tail := by
  unfold OnDisk
  rwa [read_of_frame hf hr hr' hap (le_refl _)]

/-! ## Memory read back -/

theorem take_read (mem : ℕ → ℕ) (a : ℕ) {k n : ℕ} (h : k ≤ n) :
    (read mem a n).take k = read mem a k := by
  obtain ⟨m, rfl⟩ := Nat.exists_eq_add_of_le h
  rw [read_add, List.take_left' (length_read ..)]

theorem read_write_read {disk mem : ℕ → ℕ} {a s : ℕ} (h : read disk a s = read mem 0 s) (n : ℕ) :
    read (write disk (a + s) (read mem s n)) a (s + n) = read mem 0 (s + n) := by
  have hw : read (write disk (a + s) (read mem s n)) (a + s) n = read mem s n := by
    have := read_write_self disk (a + s) (read mem s n)
    rwa [length_read] at this
  rw [read_add, read_write_of_disjoint _ _ (Or.inl (le_refl _)), h, hw, read_add, Nat.zero_add]

/-! ## The staging buffer -/

/-- The staging buffer of an extension as the writer keeps it: it holds `bytes` from its base,
    its `start` is at a block, and the disk has the bytes before `start`. -/
structure Staged (g : Geometry) (disk : ℕ → ℕ) (ext : LogExt) (bytes : List ℕ) : Prop where
  stop_eq : ext.staging.stop = bytes.length
  held : read ext.staging.mem 0 ext.staging.stop = bytes
  start_le : ext.staging.start ≤ ext.staging.stop
  aligned : g.blocksize ∣ ext.staging.start
  capacity : ext.staging.capacity = logSize g ext
  flushed : read disk (g.bytesFromSectors ext.sectors.start) ext.staging.start =
    bytes.take ext.staging.start

@[simp] theorem logSize_staging (g : Geometry) (ext : LogExt) (b : Buffer) :
    logSize g { ext with staging := b } = logSize g ext := rfl

theorem Staged.push {g : Geometry} {disk : ℕ → ℕ} {ext : LogExt} {bytes : List ℕ}
    (h : Staged g disk ext bytes) (src : List ℕ) (hroom : bytes.length + src.length ≤ logSize g ext) :
    ∃ b, bufferWrite ext.staging src = some b ∧ b.start = ext.staging.start ∧
      Staged g disk { ext with staging := b } (bytes ++ src) := by
  have hfit : ext.staging.start ≤ ext.staging.stop ∧
      ext.staging.stop + src.length ≤ ext.staging.capacity := by
    rw [h.stop_eq, h.capacity]
    exact ⟨h.start_le.trans_eq h.stop_eq, hroom⟩
  refine ⟨_, if_pos hfit, rfl, ?_⟩
  have hs : ext.staging.start ≤ bytes.length := h.start_le.trans_eq h.stop_eq
  constructor
  · simp only [h.stop_eq, List.length_append]
  · show read (write ext.staging.mem ext.staging.stop src) 0 (ext.staging.stop + src.length) =
      bytes ++ src
    rw [read_add, read_write_of_disjoint _ _ (Or.inl (Nat.zero_add _).le), Nat.zero_add,
      read_write_self, h.held]
  · exact h.start_le.trans (Nat.le_add_right _ _)
  · exact h.aligned
  · exact h.capacity
  · rw [h.flushed, List.take_append_of_le_length hs]

theorem Staged.pushU8 {g : Geometry} {disk : ℕ → ℕ} {ext : LogExt} {bytes : List ℕ}
    (h : Staged g disk ext bytes) (x : ℕ) (hroom : bytes.length + 1 ≤ logSize g ext) :
    ∃ b, pushU8 ext.staging x = some b ∧ b.start = ext.staging.start ∧
      Staged g disk { ext with staging := b } (bytes ++ [x]) :=
  h.push [x] hroom

theorem Staged.pushVarint {g : Geometry} {disk : ℕ → ℕ} {ext : LogExt} {bytes : List ℕ}
    (h : Staged g disk ext bytes) (x : ℕ) (hroom : bytes.length + (varint x).length ≤ logSize g ext) :
    ∃ b, pushVarint ext.staging x = some b ∧ b.start = ext.staging.start ∧
      Staged g disk { ext with staging := b } (bytes ++ varint x) :=
  h.push (varint x) hroom

/-- What `flush_log_extension` leaves: the bytes and `END_OF_LOG` after them are on disk, only the
    extension's bytes changed there, and unless the extension is released the buffer holds the
    same bytes, from the block `END_OF_LOG` is in. -/
theorem Staged.flush {g : Geometry} {disk : ℕ → ℕ} {ext : LogExt} {bytes : List ℕ}
    (h : Staged g disk ext bytes) (hroom : bytes.length + 1 ≤ logSize g ext) (release : Bool) :
    ∃ disk' ext', flushLogExtension g disk ext release = some (disk', ext') ∧
      ext'.sectors = ext.sectors ∧ ext'.isOpen = ext.isOpen ∧
      ext'.oldEncoding = ext.oldEncoding ∧
      bytes ++ [endOfLog] <+: read disk' (g.bytesFromSectors ext.sectors.start) (logSize g ext) ∧
      Frame g ext.sectors disk disk' ∧ (release = false → Staged g disk' ext' bytes) := by
  obtain ⟨b, hb, hstart, hs⟩ := h.pushU8 endOfLog hroom
  have hbs := blocksize_pos g
  set bs := g.blocksize
  have hls : logSize g ext = g.bytesFromSectors (rangeSpan ext.sectors) := rfl
  have hstop : b.stop = bytes.length + 1 := by
    rw [hs.stop_eq, List.length_append, List.length_singleton]
  have hsle : b.start ≤ bytes.length := hstart ▸ h.start_le.trans_eq h.stop_eq
  obtain ⟨k, hk⟩ := h.aligned
  obtain ⟨m, hm⟩ : bs ∣ logSize g ext := ⟨rangeSpan ext.sectors, by
    rw [logSize, bytesFromSectors_eq, Nat.mul_comm]⟩
  -- the blocks written run from `start` to the padded end, within the extension
  have hwb : pad (b.stop - b.start) bs ≤ logSize g ext - b.start := by
    have hkm : logSize g ext - b.start = (m - k) * bs := by
      rw [hstart, hk, hm, Nat.mul_comm bs k, Nat.mul_comm bs m, Nat.sub_mul]
    rw [hkm]
    apply pad_le (by omega)
    rw [← hkm]
    omega
  have hcond : b.start % bs = 0 ∧ pad (b.stop - b.start) bs ≤ logSize g ext := by
    refine ⟨?_, hwb.trans (Nat.sub_le _ _)⟩
    rw [hstart, hk]
    exact Nat.mul_mod_right _ _
  have hle : b.stop ≤ b.start + pad (b.stop - b.start) bs := by
    have := le_pad hbs (b.stop - b.start)
    omega
  set wb := pad (b.stop - b.start) bs
  set disk' := write disk (g.bytesFromSectors ext.sectors.start + b.start) (read b.mem b.start wb)
  -- the disk now has the buffer's cells up to the end of the blocks written
  have hdisk : read disk' (g.bytesFromSectors ext.sectors.start) (b.start + wb) =
      read b.mem 0 (b.start + wb) := by
    apply read_write_read
    rw [hs.flushed, ← hs.held, take_read _ _ hs.start_le]
  have hheld : read b.mem 0 b.stop = bytes ++ [endOfLog] := hs.held
  have htake : ∀ t, t ≤ b.stop →
      read disk' (g.bytesFromSectors ext.sectors.start) t = read b.mem 0 t := by
    intro t ht
    rw [← take_read disk' _ (ht.trans hle), hdisk, take_read _ _ (ht.trans hle)]
  refine ⟨disk', { ext with staging := if release then b
      else { b with stop := b.stop - 1, start := (b.stop - 1) / bs * bs } },
    ?_, rfl, rfl, rfl, ?_, ?_, ?_⟩
  · simp only [flushLogExtension, hb, Option.bind_eq_bind, Option.bind_some]
    rw [if_pos hcond]
    rfl
  · have hlog : logSize g ext = b.stop + (logSize g ext - b.stop) := by omega
    rw [hlog, read_add, htake _ (le_refl _), hheld]
    exact List.prefix_append _ _
  · intro i hi
    apply write_apply_of_not_mem
    rw [length_read]
    rw [← hls] at hi
    omega
  · intro hrel
    subst hrel
    have hstop' : b.stop - 1 = bytes.length := by omega
    have hnew : (b.stop - 1) / bs * bs ≤ b.stop - 1 := Nat.div_mul_le_self _ _
    constructor
    · exact hstop'
    · show read b.mem 0 (b.stop - 1) = bytes
      rw [← take_read _ _ (Nat.sub_le _ _), hheld, hstop', List.take_left' rfl]
    · exact hnew
    · exact Nat.dvd_mul_left _ _
    · exact hs.capacity
    · show read disk' (g.bytesFromSectors ext.sectors.start) ((b.stop - 1) / bs * bs) =
        bytes.take ((b.stop - 1) / bs * bs)
      rw [htake _ (by omega), ← take_read _ _ (hnew.trans (Nat.sub_le _ _)), hheld,
        List.take_append_of_le_length (by omega)]

theorem Staged.of_frame {g : Geometry} {disk disk' : ℕ → ℕ} {ext : LogExt} {bytes : List ℕ}
    (h : Staged g disk ext bytes) (hlen : bytes.length ≤ logSize g ext) {r : Range}
    (hf : Frame g r disk disk') (hr : r.start ≤ r.end) (hext : ext.sectors.start ≤ ext.sectors.end)
    (hap : Apart r ext.sectors) : Staged g disk' ext bytes where
  stop_eq := h.stop_eq
  held := h.held
  start_le := h.start_le
  aligned := h.aligned
  capacity := h.capacity
  flushed := by
    rw [read_of_frame hf hr hext hap (h.start_le.trans (h.stop_eq ▸ hlen)), h.flushed]

/-! ## A new extension -/

theorem Staged.open (g : Geometry) (disk : ℕ → ℕ) (r : Range) :
    Staged g disk (openLogExtension g r) [] where
  stop_eq := rfl
  held := rfl
  start_le := le_refl 0
  aligned := Nat.dvd_zero _
  capacity := rfl
  flushed := rfl

theorem length_hdrBytes_le (fs : Fs) {r : Range} (hspan : rangeSpan r < 2 ^ 63) :
    (hdrBytes fs r).length ≤ 17 + if r.start = 0 then 49 else 0 := by
  have hv : (varint tfsVersion).length ≤ 1 := length_varint_le_of_shiftRight (le_refl 1) rfl
  have hs := length_varint_le_nine hspan
  have hlab : (labelString fs.label).length ≤ 32 :=
    ((List.takeWhile_sublist _).length_le).trans (List.length_take_le _ _)
  have hu : fs.uuid.length = 16 := fs.uuid_length
  have hm : tfsMagic.length = 6 := rfl
  unfold hdrBytes
  split
  · simp only [List.length_append, hm, hu, List.length_singleton]
    omega
  · simp only [List.length_append, hm, List.length_nil]
    omega

/-- `log_extension_init` pushes the header `hdrBytes` into an empty extension with room for it. -/
theorem Staged.init (fs : Fs) {g : Geometry} {disk : ℕ → ℕ} {ext : LogExt}
    (h : Staged g disk ext []) (hopen : ext.isOpen = false)
    (hroom : (hdrBytes fs ext.sectors).length ≤ logSize g ext) :
    ∃ ext', logExtensionInit fs ext = some ext' ∧ ext'.sectors = ext.sectors ∧
      ext'.isOpen = false ∧ ext'.oldEncoding = ext.oldEncoding ∧
      Staged g disk ext' (hdrBytes fs ext.sectors) := by
  have hl := hroom
  unfold hdrBytes at hl
  simp only [List.length_append] at hl
  obtain ⟨b₁, h₁, -, s₁⟩ := h.push tfsMagic (by simp only [List.length_nil]; omega)
  obtain ⟨b₂, h₂, -, s₂⟩ := s₁.pushVarint tfsVersion
    (by simp only [List.length_append, List.length_nil, logSize_staging]; omega)
  obtain ⟨b₃, h₃, -, s₃⟩ := s₂.pushVarint (rangeSpan ext.sectors)
    (by simp only [List.length_append, List.length_nil, logSize_staging]; omega)
  unfold logExtensionInit
  rw [if_neg (by simp [hopen])]
  simp only [h₁, h₂, h₃, Option.bind_eq_bind, Option.bind_some, Option.pure_def]
  by_cases h0 : ext.sectors.start = 0
  · simp only [h0, if_true, List.length_append] at hl
    obtain ⟨b₄, h₄, -, s₄⟩ := s₃.push fs.uuid
      (by simp only [List.length_append, List.length_nil, logSize_staging]; omega)
    obtain ⟨b₅, h₅, -, s₅⟩ := s₄.push (labelString fs.label)
      (by simp only [List.length_append, List.length_nil, logSize_staging]; omega)
    obtain ⟨b₆, h₆, -, s₆⟩ := s₅.pushU8 0
      (by simp only [List.length_append, List.length_nil, List.length_singleton, logSize_staging] at hl ⊢; omega)
    simp only [h0, if_true, h₄, h₅, h₆, Option.bind_some]
    refine ⟨_, rfl, rfl, hopen, rfl, ?_⟩
    simpa only [hdrBytes, h0, if_true, List.nil_append, List.append_assoc] using s₆
  · simp only [h0, if_false]
    refine ⟨_, rfl, rfl, hopen, rfl, ?_⟩
    simpa only [hdrBytes, h0, if_false, List.nil_append, List.append_nil] using s₃

/-- A new extension of the sectors `r` with room for its header holds the header once
    `log_extension_init` has run. -/
theorem Staged.fresh (fs : Fs) (g : Geometry) (disk : ℕ → ℕ) (r : Range)
    (hroom : (hdrBytes fs r).length ≤ g.bytesFromSectors (rangeSpan r)) :
    ∃ ext, logExtensionInit fs (openLogExtension g r) = some ext ∧ ext.sectors = r ∧
      ext.isOpen = false ∧ ext.oldEncoding = false ∧ Staged g disk ext (hdrBytes fs r) :=
  (Staged.open g disk r).init fs rfl hroom

/-- `log_extend_link` on an extension with room for a link: the link to `r` pushed, and the
    extension released, leave its bytes and the link on disk. -/
theorem Staged.link {g : Geometry} {disk : ℕ → ℕ} {ext : LogExt} {bytes : List ℕ}
    (h : Staged g disk ext bytes) (hroom : bytes.length + 20 ≤ logSize g ext) {r : Range}
    (hs : r.start < 2 ^ 63) (hspan : rangeSpan r < 2 ^ 63) :
    ∃ b₁ b₂ b₃ disk' ext', Tlog.pushU8 ext.staging logExtensionLink = some b₁ ∧
      Tlog.pushVarint b₁ r.start = some b₂ ∧ Tlog.pushVarint b₂ (rangeSpan r) = some b₃ ∧
      flushLogExtension g disk { ext with staging := b₃ } true = some (disk', ext') ∧
      bytes ++ linkFrame r <+: read disk' (g.bytesFromSectors ext.sectors.start) (logSize g ext) ∧
      Frame g ext.sectors disk disk' := by
  have h₁ := length_varint_le_nine hs
  have h₂ := length_varint_le_nine hspan
  obtain ⟨b₁, hb₁, -, s₁⟩ := h.pushU8 logExtensionLink (by omega)
  obtain ⟨b₂, hb₂, -, s₂⟩ := s₁.pushVarint r.start
    (by simp only [List.length_append, List.length_singleton, logSize_staging]; omega)
  obtain ⟨b₃, hb₃, -, s₃⟩ := s₂.pushVarint (rangeSpan r)
    (by simp only [List.length_append, List.length_singleton, logSize_staging]; omega)
  obtain ⟨disk', ext', hfl, -, -, -, hpre, hframe, -⟩ := s₃.flush
    (by simp only [List.length_append, List.length_singleton, logSize_staging]; omega) true
  refine ⟨b₁, b₂, b₃, disk', ext', hb₁, hb₂, hb₃, hfl, ?_, hframe⟩
  have hlink : bytes ++ [logExtensionLink] ++ varint r.start ++ varint (rangeSpan r) =
      bytes ++ linkFrame r := by
    simp only [linkFrame, List.append_assoc, List.cons_append, List.nil_append]
  rw [← hlink]
  exact (List.prefix_append _ _).trans hpre

/-! ## The storage of extensions -/

/-- The offsets the storage has still to give out: the two it keeps reserved, then the answers
    `filesystem_allocate_storage` is still to give. -/
def Storage.pending (s : Storage) : List ℕ :=
  s.nextExtendLogOffset.toList ++ s.nextNewLogOffset.toList ++ s.answers.filterMap id

theorem filterMap_id_cons (a : Option ℕ) (l : List (Option ℕ)) :
    (a :: l).filterMap (fun x => x) = a.toList ++ l.filterMap (fun x => x) := by
  cases a <;> rfl

theorem reserveLogSpace_pending (s : Storage) (which : NextOffset) (take : Bool) :
    s.pending.Perm ((if take then (reserveLogSpace s which take).2.toList else []) ++
      (reserveLogSpace s which take).1.pending) := by
  rw [List.perm_iff_count]
  intro x
  obtain ⟨answers, ne, nn⟩ := s
  -- the answers matter up to the two a reservation may take
  cases which <;> cases take <;> cases ne <;> cases nn <;> cases answers with
  | nil =>
    simp [reserveLogSpace, allocateStorage, Storage.next, Storage.setNext, Storage.pending,
      List.count_cons]
    try omega
  | cons a rest =>
    cases a <;> cases rest <;>
      simp [reserveLogSpace, allocateStorage, Storage.next, Storage.setNext, Storage.pending,
        filterMap_id_cons, List.count_cons] <;> omega

end Nanos.Tlog
