import Nanos.TlogWriter

set_option autoImplicit false

/-!
# The writer's invariant within a flush

What the writer has put is a chain of extensions: those it closed, each with the segments it put
in it, and the current one. `Core` says how the chain stands: each closed extension is on disk
with its header, its frames and a link to the next (`Linked`), the current one holds its header
and frames in its buffer with room for a link, the extensions and the offsets the storage may
still give are apart, and the numbers fit in varints. `logExtend_spec`, `putSegment_spec`,
`writeSegments_spec` and `writeEntries_spec` follow the loops of `log_write_internal` under it:
an entry goes out as segments of chunks of it, in as many extensions as it takes, until an
extension cannot be reserved.
-/

namespace Nanos.Tlog
open Memory Rangemap

/-- A geometry whose extensions have room for a header, a segment and a link. -/
structure Geometry.Valid (g : Geometry) : Prop where
  initial_room : 128 ≤ g.bytesFromSectors (g.initialSize >>> g.blocksizeOrder)
  extension_room : 128 ≤ g.bytesFromSectors g.logBlocks
  initial_lt : g.initialSize >>> g.blocksizeOrder < 2 ^ 63

instance (g : Geometry) : Decidable g.Valid :=
  decidable_of_iff (128 ≤ g.bytesFromSectors (g.initialSize >>> g.blocksizeOrder) ∧
      128 ≤ g.bytesFromSectors g.logBlocks ∧ g.initialSize >>> g.blocksizeOrder < 2 ^ 63)
    ⟨fun h => ⟨h.1, h.2.1, h.2.2⟩, fun h => ⟨h.1, h.2, h.3⟩⟩

def initRange (g : Geometry) : Range := irangel 0 (g.initialSize >>> g.blocksizeOrder)

instance : DecidableRel Apart := fun _ _ => inferInstanceAs (Decidable (_ ∨ _))

@[simp] theorem rangeSpan_irangel (start length : ℕ) : rangeSpan (irangel start length) = length := by
  simp [rangeSpan, irangel]

/-! ## The chain of extensions -/

/-- What the writer has put in the log: the extensions it closed, in order, each with the
    segments it put in it, and the segments of the current one. -/
structure Chain where
  closed : List (Range × List Seg)
  segs : List Seg

def Chain.stream (c : Chain) : List Seg := c.closed.flatMap Prod.snd ++ c.segs

/-- Each closed extension is on disk with its header, its frames and a link to the next one; the
    last links to `next`. -/
def Linked (g : Geometry) (fs : Fs) (disk : ℕ → ℕ) : List (Range × List Seg) → Range → Prop
  | [], _ => True
  | x :: xs, next =>
    OnDisk g fs disk x.1 x.2 (linkFrame ((xs.head?.map Prod.fst).getD next)) ∧
      Linked g fs disk xs next

theorem Linked.append {g : Geometry} {fs : Fs} {disk : ℕ → ℕ} {r : Range} {segs : List Seg}
    {next : Range} (hx : OnDisk g fs disk r segs (linkFrame next)) :
    ∀ {xs : List (Range × List Seg)}, Linked g fs disk xs r →
      Linked g fs disk (xs ++ [(r, segs)]) next
  | [], _ => ⟨hx, trivial⟩
  | [_], ⟨hy, _⟩ => ⟨hy, hx, trivial⟩
  | _ :: _ :: _, ⟨hy, hrest⟩ => ⟨hy, Linked.append hx hrest⟩

/-- A linked chain whose current extension is on disk with `END_OF_LOG` after its frames is a
    chain the reader follows. -/
theorem Linked.chainOnDisk {g : Geometry} {fs : Fs} {disk : ℕ → ℕ} {cur : Range}
    {segs : List Seg} (hcur : OnDisk g fs disk cur segs [endOfLog]) :
    ∀ (x : Range × List Seg) (xs : List (Range × List Seg)), Linked g fs disk (x :: xs) cur →
      ChainOnDisk g fs disk x (xs ++ [(cur, segs)])
  | _, [], ⟨hx, _⟩ => ⟨hx, hcur⟩
  | _, y :: ys, ⟨hx, hrest⟩ => ⟨hx, Linked.chainOnDisk hcur y ys hrest⟩

theorem Linked.of_frame {g : Geometry} {fs : Fs} {disk disk' : ℕ → ℕ} {q : Range}
    (hf : Frame g q disk disk') (hq : q.start ≤ q.end) {next : Range} :
    ∀ {xs : List (Range × List Seg)}, (∀ x ∈ xs, x.1.start ≤ x.1.end ∧ Apart q x.1) →
      Linked g fs disk xs next → Linked g fs disk' xs next
  | [], _, _ => trivial
  | x :: _, hap, ⟨hx, hrest⟩ =>
    have hx' := hap x List.mem_cons_self
    ⟨hx.of_frame hf hq hx'.1 hx'.2,
      Linked.of_frame hf hq (fun y hy => hap y (List.mem_cons_of_mem x hy)) hrest⟩

/-- The sectors of the extensions of a chain whose current one has the sectors `cur`, and those
    the storage may still give. -/
def allRanges (g : Geometry) (c : Chain) (cur : Range) (s : Storage) : List Range :=
  c.closed.map Prod.fst ++ cur :: s.pending.map (fun a => irangel a g.logBlocks)

theorem apart_of_pairwise {l₁ l₂ : List Range} {a : Range} (h : (l₁ ++ a :: l₂).Pairwise Apart) :
    (∀ x ∈ l₁, Apart x a) ∧ ∀ y ∈ l₂, Apart a y := by
  rw [List.pairwise_append, List.pairwise_cons] at h
  exact ⟨fun x hx => h.2.2 x hx a List.mem_cons_self, h.2.1.1⟩

/-- How the writer's chain stands between the steps of `log_write_internal`. -/
structure Core (g : Geometry) (fs : Fs) (w : World) (c : Chain) : Prop where
  head : c.closed.head? = some (initRange g, [])
  linked : Linked g fs w.disk c.closed w.log.current.sectors
  staged : Staged g w.disk w.log.current (hdrBytes fs w.log.current.sectors ++ frames c.segs)
  room : (hdrBytes fs w.log.current.sectors ++ frames c.segs).length + 20 ≤ logSize g w.log.current
  closed_ext : w.log.current.isOpen = false
  newEncoding : w.log.current.oldEncoding = false
  apart : (allRanges g c w.log.current.sectors w.storage).Pairwise Apart
  bounded : ∀ r ∈ allRanges g c w.log.current.sectors w.storage, r.start < r.end ∧ r.end < 2 ^ 63
  fits : ∀ s ∈ c.stream, s.total < 2 ^ 63 ∧ s.data.length ≤ s.total

/-- The fields of the log that the loops of `log_write_internal` leave alone. -/
structure Keeps (w w' : World) : Prop where
  entries : w'.entries = w.entries
  encodingLengths : w'.log.encodingLengths = w.log.encodingLengths
  dirty : w'.log.dirty = w.log.dirty
  state : w'.log.state = w.log.state

theorem Keeps.refl (w : World) : Keeps w w := ⟨rfl, rfl, rfl, rfl⟩

theorem Keeps.trans {w₁ w₂ w₃ : World} (h₁ : Keeps w₁ w₂) (h₂ : Keeps w₂ w₃) : Keeps w₁ w₃ :=
  ⟨h₂.entries.trans h₁.entries, h₂.encodingLengths.trans h₁.encodingLengths,
    h₂.dirty.trans h₁.dirty, h₂.state.trans h₁.state⟩

section Core

variable {g : Geometry} {fs : Fs} {w : World} {c : Chain}

theorem pos_of_room {n : ℕ} (h : 128 ≤ g.bytesFromSectors n) : 0 < n := by
  rw [bytesFromSectors_eq] at h
  rcases Nat.eq_zero_or_pos n with h₀ | h₀
  · rw [h₀, Nat.zero_mul] at h
    omega
  · exact h₀

theorem start_ne_zero_of_apart (hg : g.Valid) {r : Range} (hr : r.start < r.end)
    (hap : Apart (initRange g) r) : r.start ≠ 0 := by
  have hpos := pos_of_room hg.initial_room
  unfold Apart initRange irangel at hap
  simp only [Nat.zero_add] at hap
  omega

theorem Core.closed_ne_nil (hc : Core g fs w c) : c.closed ≠ [] := by
  intro h
  have := hc.head
  rw [h, List.head?_nil] at this
  cases this

theorem Core.initRange_mem (hc : Core g fs w c) : initRange g ∈ c.closed.map Prod.fst := by
  obtain ⟨x, xs, hx⟩ := List.exists_cons_of_ne_nil hc.closed_ne_nil
  have := hc.head
  rw [hx, List.head?_cons, Option.some_inj] at this
  rw [hx, List.map_cons, this]
  exact List.mem_cons_self

theorem Core.of_storage (hc : Core g fs w c) {s : Storage} (hs : w.storage.pending.Perm s.pending) :
    Core g fs { w with storage := s } c := by
  have hall : (allRanges g c w.log.current.sectors w.storage).Perm
      (allRanges g c w.log.current.sectors s) :=
    ((hs.map _).cons _).append_left _
  exact { hc with
    apart := (hall.pairwise_iff (fun h => Apart.symm h)).1 hc.apart
    bounded := fun r hr => hc.bounded r (hall.mem_iff.2 hr) }

/-- `log_extend` under the invariant: either no extension can be reserved, and only the storage
    changed, or the chain has one more closed extension, linked to a new current one that holds
    only its header, and the same segments. -/
theorem logExtend_spec (hg : g.Valid) (hc : Core g fs w c) :
    ∃ w' ok, logExtend g fs w = some (w', ok) ∧ Keeps w w' ∧
      w'.log.tupleStaging = w.log.tupleStaging ∧
      ((ok = false ∧ Core g fs w' c) ∨
        (ok = true ∧ ∃ c', Core g fs w' c' ∧ c'.stream = c.stream ∧
          w'.log.current.staging.stop + segmentRoom < logSize g w'.log.current)) := by
  have hperm := reserveLogSpace_pending w.storage .extend true
  unfold logExtend
  rcases hres : reserveLogSpace w.storage .extend true with ⟨storage, o⟩
  rw [hres] at hperm
  cases o with
  | none =>
    simp only [if_true, Option.toList_none, List.nil_append] at hperm
    exact ⟨_, false, rfl, ⟨rfl, rfl, rfl, rfl⟩, rfl, Or.inl ⟨rfl, hc.of_storage hperm⟩⟩
  | some offset =>
    simp only [if_true, Option.toList_some, List.singleton_append] at hperm
    simp only
    set r := irangel offset g.logBlocks
    -- the new extension is apart from every extension of the chain
    have hall : (allRanges g c w.log.current.sectors w.storage).Perm
        ((c.closed.map Prod.fst ++ [w.log.current.sectors]) ++ r :: storage.pending.map
          (fun a => irangel a g.logBlocks)) := by
      rw [List.append_assoc, List.singleton_append]
      exact ((hperm.map _).cons _).append_left _
    have hap' := (hall.pairwise_iff (fun h => Apart.symm h)).1 hc.apart
    have hbd' : ∀ q ∈ (c.closed.map Prod.fst ++ [w.log.current.sectors]) ++ r :: storage.pending.map
        (fun a => irangel a g.logBlocks), q.start < q.end ∧ q.end < 2 ^ 63 :=
      fun q hq => hc.bounded q (hall.mem_iff.2 hq)
    have hrb := hbd' r (List.mem_append_right _ List.mem_cons_self)
    have hr_apart : ∀ q ∈ c.closed.map Prod.fst ++ [w.log.current.sectors], Apart q r :=
      (apart_of_pairwise hap').1
    have hcur_b := hbd' w.log.current.sectors
      (List.mem_append_left _ (List.mem_append_right _ (List.mem_singleton_self _)))
    have hcur_apart : ∀ x ∈ c.closed, Apart x.1 w.log.current.sectors := fun x hx =>
      (apart_of_pairwise hc.apart).1 x.1 (List.mem_map_of_mem hx)
    have hr0 : r.start ≠ 0 := start_ne_zero_of_apart hg hrb.1
      (hr_apart _ (List.mem_append_left _ hc.initRange_mem))
    have hspan : rangeSpan r = g.logBlocks := rangeSpan_irangel _ _
    have hhdr : (hdrBytes fs r).length ≤ 17 := by
      have := length_hdrBytes_le fs (show rangeSpan r < 2 ^ 63 by unfold rangeSpan; omega)
      rwa [if_neg hr0, Nat.add_zero] at this
    have hroom := hc.room
    have hsize := hg.extension_room
    -- the new extension gets its header, on disk
    obtain ⟨newExt, hinit, hsec, hopen, henc, hst⟩ :=
      Staged.fresh fs g w.disk r (by rw [hspan]; omega)
    obtain ⟨disk₁, newExt₁, hfl₁, hsec₁, hopen₁, henc₁, -, hframe₁, hst₁⟩ :=
      hst.flush (by rw [logSize, hsec, hspan]; omega) false
    rw [hsec] at hframe₁
    -- the old extension gets the link, and is released
    obtain ⟨b₁, b₂, b₃, disk₂, ext₂, hb₁, hb₂, hb₃, hfl₂, hpre₂, hframe₂⟩ :=
      (hc.staged.of_frame (by omega) hframe₁ hrb.1.le hcur_b.1.le
        (hr_apart _ (List.mem_append_right _ (List.mem_singleton_self _))).symm).link hroom
        (show r.start < 2 ^ 63 by omega) (show rangeSpan r < 2 ^ 63 by unfold rangeSpan; omega)
    have hst₂ : Staged g disk₂ newExt₁ (hdrBytes fs r) := by
      have := (hst₁ rfl).of_frame (by rw [logSize, hsec₁, hsec, hspan]; omega) hframe₂
        hcur_b.1.le (by rw [hsec₁, hsec]; exact hrb.1.le)
        (by rw [hsec₁, hsec]; exact hr_apart _ (List.mem_append_right _ (List.mem_singleton_self _)))
      exact this
    refine ⟨{ w with disk := disk₂, storage := storage, log := { w.log with current := newExt₁ } },
      true, ?_, ⟨rfl, rfl, rfl, rfl⟩, rfl, Or.inr ⟨rfl, ⟨c.closed ++ [(w.log.current.sectors, c.segs)], []⟩,
        ?_, ?_, ?_⟩⟩
    · simp only [hinit, hfl₁, hb₁, hb₂, hb₃, hfl₂, Option.bind_eq_bind, Option.bind_some]
      rfl
    · have hsec' : newExt₁.sectors = r := hsec₁.trans hsec
      have hlinked : Linked g fs disk₂ c.closed w.log.current.sectors :=
        (hc.linked.of_frame hframe₁ hrb.1.le fun x hx =>
            ⟨(hbd' x.1 (List.mem_append_left _ (List.mem_append_left _
              (List.mem_map_of_mem hx)))).1.le,
              (hr_apart x.1 (List.mem_append_left _ (List.mem_map_of_mem hx))).symm⟩).of_frame
          hframe₂ hcur_b.1.le fun x hx =>
            ⟨(hbd' x.1 (List.mem_append_left _ (List.mem_append_left _
              (List.mem_map_of_mem hx)))).1.le, (hcur_apart x hx).symm⟩
      exact {
        head := by rw [List.head?_append, hc.head, Option.some_or]
        linked := by
          show Linked g fs disk₂ (c.closed ++ [(w.log.current.sectors, c.segs)]) newExt₁.sectors
          rw [hsec']
          exact Linked.append hpre₂ hlinked
        staged := by
          show Staged g disk₂ newExt₁ (hdrBytes fs newExt₁.sectors ++ frames [])
          rw [hsec', frames_nil, List.append_nil]
          exact hst₂
        room := by
          show (hdrBytes fs newExt₁.sectors ++ frames []).length + 20 ≤ logSize g newExt₁
          rw [logSize, hsec', hspan, frames_nil, List.append_nil]
          omega
        closed_ext := hopen₁.trans hopen
        newEncoding := henc₁.trans henc
        apart := by
          show (allRanges g ⟨c.closed ++ [(w.log.current.sectors, c.segs)], []⟩ newExt₁.sectors
            storage).Pairwise Apart
          rw [allRanges, hsec', List.map_append, List.map_singleton]
          exact hap'
        bounded := by
          show ∀ q ∈ allRanges g ⟨c.closed ++ [(w.log.current.sectors, c.segs)], []⟩
            newExt₁.sectors storage, q.start < q.end ∧ q.end < 2 ^ 63
          rw [allRanges, hsec', List.map_append, List.map_singleton]
          exact hbd'
        fits := by
          have : (⟨c.closed ++ [(w.log.current.sectors, c.segs)], []⟩ : Chain).stream = c.stream := by
            simp only [Chain.stream, List.flatMap_append, List.flatMap_singleton, List.append_nil]
          rw [this]
          exact hc.fits }
    · simp only [Chain.stream, List.flatMap_append, List.flatMap_singleton, List.append_nil]
    · show newExt₁.staging.stop + segmentRoom < logSize g newExt₁
      rw [hst₂.stop_eq, logSize, hsec₁, hsec, hspan]
      unfold segmentRoom tfsExtensionLinkBytes tupleAvailableMinSize tupleAvailableHeaderSize
        maxVarintSize
      omega

theorem Core.put (hc : Core g fs w c) {w' : World} (hdisk : w'.disk = w.disk)
    (hstorage : w'.storage = w.storage) (hsec : w'.log.current.sectors = w.log.current.sectors)
    (hopen : w'.log.current.isOpen = false) (henc : w'.log.current.oldEncoding = false)
    {segs : List Seg}
    (hst : Staged g w'.disk w'.log.current (hdrBytes fs w'.log.current.sectors ++ frames (c.segs ++ segs)))
    (hroom : (hdrBytes fs w'.log.current.sectors ++ frames (c.segs ++ segs)).length + 20 ≤
      logSize g w'.log.current)
    (hfits : ∀ s ∈ segs, s.total < 2 ^ 63 ∧ s.data.length ≤ s.total) :
    Core g fs w' ⟨c.closed, c.segs ++ segs⟩ where
  head := hc.head
  linked := by rw [hdisk, hsec]; exact hc.linked
  staged := hst
  room := hroom
  closed_ext := hopen
  newEncoding := henc
  apart := by
    show (allRanges g c w'.log.current.sectors w'.storage).Pairwise Apart
    rw [hsec, hstorage]
    exact hc.apart
  bounded := by
    show ∀ r ∈ allRanges g c w'.log.current.sectors w'.storage, r.start < r.end ∧ r.end < 2 ^ 63
    rw [hsec, hstorage]
    exact hc.bounded
  fits := by
    intro s hs
    simp only [Chain.stream, ← List.append_assoc, List.mem_append] at hs
    rcases hs with hs | hs
    · exact hc.fits s (by rw [Chain.stream]; exact List.mem_append.2 hs)
    · exact hfits s hs

/-- One round of the loop of `log_write_internal`, in an extension with room: a segment of the
    first bytes of what is left of the entry, at least one of them, goes into the current
    extension. -/
theorem putSegment_spec (hc : Core g fs w c)
    (hroom : w.log.current.staging.stop + segmentRoom < logSize g w.log.current)
    {rest later : List ℕ} (hts : w.log.tupleStaging = rest ++ later) (hne : rest ≠ [])
    (written : ℕ) (hlt : written + rest.length < 2 ^ 63) :
    ∃ w' len, putSegment g w rest.length written = some (w', len) ∧ 0 < len ∧
      len ≤ rest.length ∧ w'.log.tupleStaging = rest.drop len ++ later ∧ Keeps w w' ∧
      Core g fs w' ⟨c.closed, c.segs ++ [⟨written = 0, written + rest.length, rest.take len⟩]⟩ := by
  have hstop := hc.staged.stop_eq
  have hstop' : (hdrBytes fs w.log.current.sectors).length + (frames c.segs).length =
      w.log.current.staging.stop := by rw [hstop, List.length_append]
  have hrl : 0 < rest.length := List.length_pos_of_ne_nil hne
  have hlink : tfsExtensionLinkBytes = 21 := rfl
  have hhdr : tupleAvailableHeaderSize = 21 := rfl
  have hsr : segmentRoom = 74 := rfl
  rw [hsr] at hroom
  -- the segment's length: what is left of the entry, or what the room allows
  obtain ⟨len, hlen⟩ : ∃ len, min (logSize g w.log.current -
      (w.log.current.staging.stop + tfsExtensionLinkBytes + tupleAvailableHeaderSize))
      rest.length = len := ⟨_, rfl⟩
  have hlen_le : len ≤ rest.length := hlen ▸ min_le_right _ _
  have hlen_room : len ≤ logSize g w.log.current - (w.log.current.staging.stop + 42) := by
    rw [← hlen, hlink, hhdr]
    exact min_le_left _ _
  have hlen_pos : 0 < len := by
    rw [← hlen, hlink, hhdr]
    omega
  have hv₂ := length_varint_le_nine (show len < 2 ^ 63 by omega)
  have hdata : w.log.tupleStaging.take len = rest.take len := by
    rw [hts, List.take_append_of_le_length hlen_le]
  have hdrop : w.log.tupleStaging.drop len = rest.drop len ++ later := by
    rw [hts, List.drop_append_of_le_length hlen_le]
  have hle : len ≤ w.log.tupleStaging.length := by
    rw [hts, List.length_append]
    omega
  have hseg_fits : (written + rest.length < 2 ^ 63 ∧ (rest.take len).length ≤ written + rest.length) := by
    rw [List.length_take]
    omega
  -- the rest of the round after the segment's header `hdr`, the same whichever header it is
  have htail : ∀ (b₀ : Buffer) (hdr : List ℕ), hdr.length ≤ 10 →
      Staged g w.disk { w.log.current with staging := b₀ }
        (hdrBytes fs w.log.current.sectors ++ frames c.segs ++ hdr) →
      Seg.frame ⟨written = 0, written + rest.length, rest.take len⟩ = hdr ++ varint len ++ rest.take len →
      ∃ b₂ b₃, Tlog.pushVarint b₀ len = some b₂ ∧ bufferWrite b₂ (rest.take len) = some b₃ ∧
        Core g fs { w with
          log := { w.log with
            current := { w.log.current with staging := b₃ }
            tupleStaging := rest.drop len ++ later } }
          ⟨c.closed, c.segs ++ [⟨written = 0, written + rest.length, rest.take len⟩]⟩ := by
    intro b₀ hdr hhdr s₀ hframe
    have hbytes : (hdrBytes fs w.log.current.sectors ++ frames c.segs).length + hdr.length + 9 +
        len + 20 ≤ logSize g w.log.current := by omega
    obtain ⟨b₂, hb₂, -, s₂⟩ := s₀.pushVarint len
      (by simp only [List.length_append, logSize_staging]; omega)
    obtain ⟨b₃, hb₃, -, s₃⟩ := s₂.push (rest.take len)
      (by simp only [List.length_append, List.length_take, logSize_staging]; omega)
    refine ⟨b₂, b₃, hb₂, hb₃,
      hc.put (by rfl) (by rfl) (by rfl) (by exact hc.closed_ext) (by exact hc.newEncoding) ?_ ?_ ?_⟩
    · show Staged g w.disk { w.log.current with staging := b₃ }
        (hdrBytes fs w.log.current.sectors ++ frames (c.segs ++ [_]))
      rw [frames_append, frames_cons, frames_nil, List.append_nil, hframe, ← List.append_assoc,
        ← List.append_assoc, ← List.append_assoc]
      exact s₃
    · show (hdrBytes fs w.log.current.sectors ++ frames (c.segs ++ [_])).length + 20 ≤
        logSize g w.log.current
      rw [frames_append, frames_cons, frames_nil, List.append_nil, hframe]
      simp only [List.length_append, List.length_take]
      simp only [List.length_append] at hbytes
      omega
    · intro s hs
      rw [List.mem_singleton] at hs
      subst hs
      exact hseg_fits
  unfold putSegment
  simp only [Option.bind_eq_bind]
  by_cases hw : written = 0
  · -- the first segment of the entry: `TUPLE_AVAILABLE` and the entry's length
    subst hw
    have hv₁ := length_varint_le_nine (show rest.length < 2 ^ 63 by omega)
    obtain ⟨b₀, hb₀, -, s₀⟩ := hc.staged.pushU8 tupleAvailable (by omega)
    obtain ⟨b₁, hb₁, -, s₁⟩ := s₀.pushVarint rest.length
      (by simp only [List.length_append, List.length_singleton, logSize_staging]; omega)
    obtain ⟨b₂, b₃, hb₂, hb₃, hcore⟩ := htail b₁ ([tupleAvailable] ++ varint rest.length)
      (by simp only [List.length_append, List.length_singleton]; omega)
      (by rw [← List.append_assoc]; exact s₁)
      (by simp only [Seg.frame, decide_true, if_true, Nat.zero_add, List.length_take,
        Nat.min_eq_left hlen_le, List.cons_append, List.append_assoc, List.nil_append])
    refine ⟨_, len, ?_, hlen_pos, hlen_le, by rfl, ⟨by rfl, by rfl, by rfl, by rfl⟩, hcore⟩
    simp only [if_true, hlen, hb₀, hb₁, hb₂, if_pos hle, hdata, hb₃, hdrop, Option.bind_some,
      Option.pure_def]
  · -- a later segment: `TUPLE_EXTENDED`
    obtain ⟨b₀, hb₀, -, s₀⟩ := hc.staged.pushU8 tupleExtended (by omega)
    obtain ⟨b₂, b₃, hb₂, hb₃, hcore⟩ := htail b₀ [tupleExtended]
      (by simp only [List.length_singleton]; omega) s₀
      (by simp only [Seg.frame, hw, decide_false, Bool.false_eq_true, if_false, List.length_take,
        Nat.min_eq_left hlen_le, List.cons_append, List.append_assoc, List.nil_append])
    refine ⟨_, len, ?_, hlen_pos, hlen_le, by rfl, ⟨by rfl, by rfl, by rfl, by rfl⟩, hcore⟩
    simp only [hw, if_false, hlen, hb₀, hb₂, if_pos hle, hdata, hb₃, hdrop, Option.bind_some,
      Option.pure_def]

theorem Chain.stream_put (c : Chain) (segs : List Seg) :
    (⟨c.closed, c.segs ++ segs⟩ : Chain).stream = c.stream ++ segs := by
  simp only [Chain.stream, List.append_assoc]

/-- The test that opens a round of the loop of `log_write_internal`: the log is extended when
    the current extension has no room for a link and a segment. Either no extension could be
    reserved, or there is room now. -/
theorem extend_spec (hg : g.Valid) (hc : Core g fs w c) :
    ∃ w₁ ok, (if logSize g w.log.current ≤ w.log.current.staging.stop + segmentRoom ∨
        w.log.current.oldEncoding = true then logExtend g fs w else some (w, true)) = some (w₁, ok) ∧
      Keeps w w₁ ∧ w₁.log.tupleStaging = w.log.tupleStaging ∧
      ((ok = false ∧ Core g fs w₁ c) ∨
        (ok = true ∧ ∃ c₁, Core g fs w₁ c₁ ∧ c₁.stream = c.stream ∧
          w₁.log.current.staging.stop + segmentRoom < logSize g w₁.log.current)) := by
  split
  · exact logExtend_spec hg hc
  · rename_i hroom
    rw [not_or, not_le] at hroom
    exact ⟨w, true, rfl, Keeps.refl w, rfl, Or.inr ⟨rfl, c, hc, rfl, hroom.1⟩⟩

/-- The loop of `log_write_internal` over one entry, of which `written` bytes went out and the
    bytes `rest` are left, first in the staged bytes: it puts them out as segments of chunks of
    them, and stops early only when no extension could be reserved. The induction is on the
    fuel, which the bytes left bound. -/
theorem writeSegments_spec (hg : g.Valid) :
    ∀ (fuel : ℕ) {w : World} {c : Chain} {rest later : List ℕ} (written : ℕ), Core g fs w c →
      w.log.tupleStaging = rest ++ later → rest ≠ [] → rest.length ≤ fuel →
      written + rest.length < 2 ^ 63 →
      ∃ w' ok c' cs more, writeSegments g fs fuel w rest.length written = some (w', ok) ∧
        Core g fs w' c' ∧ Keeps w w' ∧
        c'.stream = c.stream ++ chunkSegs (written + rest.length) (decide (written = 0)) cs ∧
        (∀ x ∈ cs, x ≠ []) ∧ cs.flatten ++ more = rest ∧ w'.log.tupleStaging = more ++ later ∧
        (ok = true ↔ more = [])
  | 0, _, _, _, _, _, _, _, hne, hfuel, _ =>
    absurd hfuel (by have := List.length_pos_of_ne_nil hne; omega)
  | fuel + 1, w, c, rest, later, written, hc, hts, hne, hfuel, hlt => by
    obtain ⟨w₁, ok₁, hext, hk₁, hts₁, hcases⟩ := extend_spec hg hc
    have hne_ts : w.log.tupleStaging ≠ [] := by
      rw [hts]
      exact List.append_ne_nil_of_left_ne_nil hne _
    rw [writeSegments, if_neg hne_ts]
    simp only []
    rw [hext]
    rcases hcases with ⟨rfl, hc₁⟩ | ⟨rfl, c₁, hc₁, hstream₁, hroom₁⟩
    · -- no extension could be reserved: the entry stops before its next segment
      exact ⟨w₁, false, c, [], rest, rfl, hc₁, hk₁, by rw [chunkSegs_nil, List.append_nil],
        by simp, by simp, hts₁.trans hts, by simp [hne]⟩
    · simp only [if_pos hroom₁]
      obtain ⟨w₂, len, hput, hpos, hle, hts₂, hk₂, hc₂⟩ :=
        putSegment_spec hc₁ hroom₁ (hts₁.trans hts) hne written hlt
      rw [hput]
      simp only []
      have hseg : (⟨c₁.closed, c₁.segs ++ [⟨written = 0, written + rest.length, rest.take len⟩]⟩ :
          Chain).stream = c.stream ++ [⟨written = 0, written + rest.length, rest.take len⟩] := by
        rw [Chain.stream_put, hstream₁]
      have htake : rest.take len ≠ [] := by
        intro h
        rw [List.take_eq_nil_iff] at h
        rcases h with h | h
        · omega
        · exact hne h
      by_cases hmore : rest.length - len > 0
      · -- more segments: the loop goes on with what is left
        rw [if_pos hmore]
        have hdrop : rest.drop len ≠ [] := by
          intro h
          rw [List.drop_eq_nil_iff] at h
          omega
        obtain ⟨w', ok, c', cs, more, hrun, hc', hk', hstr, hcs, hflat, hts', hok⟩ :=
          writeSegments_spec hg fuel (written + len) hc₂ hts₂ hdrop
            (by rw [List.length_drop]; omega) (by rw [List.length_drop]; omega)
        rw [List.length_drop] at hrun
        have htotal : written + len + (rest.length - len) = written + rest.length := by omega
        have hfirst : decide (written + len = 0) = false := by
          rw [decide_eq_false_iff_not]
          omega
        refine ⟨w', ok, c', rest.take len :: cs, more, hrun, hc', hk₁.trans (hk₂.trans hk'),
          ?_, ?_, ?_, hts', hok⟩
        · rw [hstr, hseg, List.length_drop, htotal, hfirst, chunkSegs_cons, List.append_assoc,
            List.singleton_append]
        · intro x hx
          rcases List.mem_cons.1 hx with rfl | hx
          · exact htake
          · exact hcs x hx
        · rw [List.flatten_cons, List.append_assoc, hflat, List.take_append_drop]
      · -- the last segment of the entry
        rw [if_neg hmore]
        have hlen : len = rest.length := by omega
        refine ⟨w₂, true, _, [rest.take len], [], rfl, hc₂, hk₁.trans hk₂, ?_, ?_, ?_, ?_,
          by simp⟩
        · rw [hseg, chunkSegs_cons, chunkSegs_nil]
        · intro x hx
          rw [List.mem_singleton] at hx
          rw [hx]
          exact htake
        · rw [List.flatten_singleton, List.append_nil, hlen, List.take_length]
        · rw [hts₂, hlen, List.drop_length, List.nil_append]

/-- The loop of `log_write_internal` over the staged entries `ps`: they all go out, one after
    the other, each as the segments of its chunks, or the log stops within one of them, after
    the whole ones before it, when no extension could be reserved. The induction is on the
    entries. -/
theorem writeEntries_spec (hg : g.Valid) :
    ∀ (ps : List (List ℕ)) {w : World} {c : Chain}, Core g fs w c →
      w.log.tupleStaging = ps.flatten → (∀ e ∈ ps, e ≠ [] ∧ e.length < 2 ^ 63) →
      ∃ w' ok c', writeEntries g fs w (ps.map List.length) = some (w', ok) ∧ Core g fs w' c' ∧
        Keeps w w' ∧
        ((ok = true ∧ w'.log.tupleStaging = [] ∧ ∃ segs, Cut ps segs ∧ c'.stream = c.stream ++ segs) ∨
          (ok = false ∧ ∃ n e cs segs, ps[n]? = some e ∧ CutShort (ps.take n) e cs segs ∧
            c'.stream = c.stream ++ segs))
  | [], w, c, hc, hts, _ =>
    ⟨w, true, c, rfl, hc, Keeps.refl w, Or.inl ⟨rfl, hts, [], .nil, (List.append_nil _).symm⟩⟩
  | e :: ps, w, c, hc, hts, hps => by
    obtain ⟨hne, hlt⟩ := hps e List.mem_cons_self
    have hlen : e.length ≠ 0 := fun h => hne (List.eq_nil_of_length_eq_zero h)
    obtain ⟨w₁, ok₁, c₁, cs, more, hrun, hc₁, hk₁, hstr₁, hcs, hflat, hts₁, hok₁⟩ :=
      writeSegments_spec hg e.length 0 hc (by rw [hts, List.flatten_cons]) hne (le_refl _)
        (by omega)
    rw [List.map_cons, writeEntries, if_neg hlen, hrun]
    rw [Nat.zero_add] at hstr₁
    simp only [decide_true] at hstr₁
    cases ok₁ with
    | false =>
      -- the log stops within `e`
      have hmore : more ≠ [] := fun h => Bool.false_ne_true (hok₁.2 h)
      have hshort : cs.flatten.length < e.length := by
        rw [← hflat, List.length_append]
        have := List.length_pos_of_ne_nil hmore
        omega
      exact ⟨w₁, false, c₁, rfl, hc₁, hk₁, Or.inr ⟨rfl, 0, e, cs, chunkSegs e.length true cs, rfl,
        ⟨[], .nil, rfl, hcs, hshort⟩, hstr₁⟩⟩
    | true =>
      -- `e` went out whole: the loop goes on with the entries after it
      have hmore : more = [] := hok₁.1 rfl
      subst hmore
      rw [List.append_nil] at hflat
      have hchunks : Chunks e cs := ⟨fun h => hne (by rw [← hflat, h, List.flatten_nil]), hcs, hflat⟩
      obtain ⟨w', ok, c', hrun', hc', hk', hres⟩ := writeEntries_spec hg ps hc₁ hts₁
        (fun x hx => hps x (List.mem_cons_of_mem e hx))
      refine ⟨w', ok, c', hrun', hc', hk₁.trans hk', ?_⟩
      rcases hres with ⟨hok, hts', segs, hcut, hstr⟩ | ⟨hok, n, e', cs', segs, hn, hshort, hstr⟩
      · exact Or.inl ⟨hok, hts', entrySegs e cs ++ segs, .cons hchunks hcut, by
          rw [hstr, hstr₁, List.append_assoc, entrySegs]⟩
      · obtain ⟨segs₀, hcut, rfl, hcs', hlt'⟩ := hshort
        refine Or.inr ⟨hok, n + 1, e', cs', entrySegs e cs ++ segs₀ ++ chunkSegs e'.length true cs',
          hn, ⟨entrySegs e cs ++ segs₀, .cons hchunks hcut, rfl, hcs', hlt'⟩, ?_⟩
        rw [hstr, hstr₁, entrySegs, List.append_assoc, List.append_assoc]

end Core

end Nanos.Tlog
